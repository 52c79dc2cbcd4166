import MbKeeper.LocalStore
import MbKeeper.TreeHistory

/-!
# The time of grace

The purge tells the age of an incomplete generation by one `stat` of its
directory. What happens deeper in the tree leaves that time as it was, and the
copy routine sets it to the source's. `Sheltered` says when the directory is
safe nevertheless: its own time is recent or its id in progress, and the id of
no other directory that is due leads to it.
-/
namespace MbKeeper

open LocalDestination

theorem TreeEvent.housed_apply {t t' : Fs} {e : TreeEvent Name String} (ht : t.Housed)
    (h : e.apply t = some t') : t'.Housed := by
  intro l x hx
  rcases TreeEvent.apply_cases h with ⟨m, k, -, hdir, hnone, rfl⟩ | ⟨m, data, -, hfile, rfl⟩ |
    ⟨m, -, rfl⟩ | ⟨m, mtime, -, rfl⟩
  · rw [FileTree.kind_create] at hx ⊢
    by_cases hm : l ++ [x] = m
    · subst hm
      rw [List.dropLast_concat] at hdir
      rw [if_neg (by simp), hdir]
    · rw [if_neg hm] at hx
      have hl := ht l x hx
      rw [if_neg (fun hlm => by rw [hlm, hnone] at hl; cases hl), hl]
  · obtain ⟨d, hd⟩ := (FileTree.isFile_iff t m).mp hfile
    have hput : ∀ q, (t.put m ⟨.file data, e.time⟩).kind q =
        if q = m then some (.file data) else t.kind q := by
      intro q
      by_cases hq : q = m <;> simp [FileTree.kind, FileTree.put, hq]
    rw [hput] at hx ⊢
    have hx' : t.kind (l ++ [x]) ≠ none := by
      split_ifs at hx with hm
      · rw [hm, hd]
        simp
      · exact hx
    have hl := ht l x hx'
    rw [if_neg (fun hlm => by rw [hlm, hd] at hl; cases hl), hl]
  · rw [FileTree.kind_removeTree] at hx ⊢
    split_ifs at hx with hm
    · exact absurd rfl hx
    · rw [if_neg (fun hl => hm (hl.trans (List.prefix_append _ _))), ht l x hx]
  · rw [FileTree.kind_touch] at hx ⊢
    exact ht l x hx

theorem housed_replay {t t' : Fs} {history : List (TreeEvent Name String)} (ht : t.Housed)
    (h : t.replay history = some t') : t'.Housed := by
  induction history generalizing t with
  | nil =>
    obtain rfl := Option.some.inj h
    exact ht
  | cons e history ih =>
    obtain ⟨u, hu, h⟩ := replay_cons h
    exact ih (TreeEvent.housed_apply ht hu) h

theorem FileTree.Housed.parent {t : Fs} (ht : t.Housed) {l : Loc} (h : t.kind l = some .dir) :
    t.kind l.dropLast = some .dir := by
  rcases List.eq_nil_or_concat l with rfl | ⟨m, x, rfl⟩
  · exact h
  · rw [List.concat_eq_append] at h ⊢
    rw [List.dropLast_concat]
    exact ht m x (by rw [h]; simp)

/-- A directory in which things happen is still there, with the time read off the history. -/
theorem own_replay {t t' : Fs} {base : Loc} {history : List (TreeEvent Name String)}
    (hdir : t.kind base = some .dir) (hin : ∀ e ∈ history, e.Inside base)
    (h : t.replay history = some t') :
    t'.kind base = some .dir ∧ mtimeAt t' base = ownTime base history (mtimeAt t base) := by
  have hlook := lookup_replay hin h
  unfold FileTree.kind at hdir ⊢
  unfold mtimeAt
  rw [hlook]
  cases hn : t.lookup base with
  | none =>
    rw [hn] at hdir
    cases hdir
  | some n =>
    rw [hn] at hdir
    exact ⟨hdir, rfl⟩

/-- What this node lost, it lost with all it held. -/
def Uproots (w w' : World) : Prop := FileTree.Uproots w.fs w'.fs

instance : Std.Refl Uproots := ⟨fun w => FileTree.Uproots.refl w.fs⟩

instance : IsTrans World Uproots := ⟨fun _ _ _ h h' => FileTree.Uproots.trans h h'⟩

theorem Same.uproots {w w' : World} (h : Same w w') : Uproots w w' := by
  unfold Uproots
  rw [h.fs]
  exact FileTree.Uproots.refl w.fs

theorem rmtree_uproots (p : Path) (ig : Bool) : Moves Uproots (rmtree p ig) := by
  intro w
  have hset : ∀ t : Fs, FileTree.Uproots w.fs t → Uproots w (w.next.setTree none t) := by
    intro t h
    rwa [Uproots, World.fs_setTree_none]
  rw [rmtree, exec_primitive, World.fs_next]
  cases p.find w.fs with
  | none => exact (same_next w).uproots
  | some l =>
    dsimp only
    by_cases hdir : w.fs.isDir l = true
    · rw [if_pos hdir]
      cases (w.tape 0).fault with
      | some e => exact hset _ (FileTree.Uproots.unlinkAll _ _ _)
      | none =>
        have hclear := FileTree.Uproots.clear w.fs l (w.tape 0).stamp
        dsimp only
        split_ifs
        · exact hset _ (hclear.trans (FileTree.Uproots.removeTree _ _ _))
        · exact hset _ hclear
    · rw [if_neg hdir]
      exact (same_next w).uproots

theorem delete_uproots (d : LocalDestination) (backup_id : String) :
    Moves Uproots (d.delete backup_id) := by
  have hname : ∀ name, Moves Uproots (d.delete_name name) := fun name =>
    Moves.bind (fun w => (ask_same _ w).uproots)
      (fun _ => Moves.ite (guarded_moves _ (rmtree_uproots _ _)) (Moves.pure _))
  exact Moves.bind (hname _) (fun _ => hname _)

/-- A file is no directory to remove. -/
theorem rmtree_of_file {p : Path} {l : Loc} (hp : p.At l) {w : World}
    (hfile : w.fs.isFile l = true) :
    ∃ e w', exec (rmtree p false) w = (.error e, w') ∧ Same w w' := by
  have hnot : w.fs.isDir l = false := by
    obtain ⟨data, hdata⟩ := (FileTree.isFile_iff _ _).mp hfile
    simp [FileTree.isDir, hdata]
  have herror : ∃ e, (exec (rmtree p false) w).1 = .error e := by
    rw [rmtree, exec_primitive, World.fs_next, hp.find]
    dsimp only
    rw [if_neg (ne_true_of_eq_false hnot)]
    exact ⟨_, rfl⟩
  obtain ⟨e, he⟩ := herror
  exact ⟨e, _, Prod.ext he rfl, rmtree_of_not_dir (by rwa [hp.loc_eq])⟩

/-- So `delete` goes no further than a file of the id's own name. -/
theorem delete_of_file {d : LocalDestination} {P : Loc} (hp : d.path.At P) {z : Name} {w : World}
    (hfile : w.fs.isFile (P ++ [z]) = true) : Same w (exec (d.delete z.val) w).2 := by
  have hat := hp.join z
  have hthere : (d.path.join z.val).presentIn w.next.fs = true := by
    simp only [Path.presentIn, hat.find, Option.map_some, Option.getD_some, FileTree.present_iff]
    exact FileTree.kind_ne_none_of_isFile hfile
  have hfails : ∃ e w', exec (d.delete_name z.val) w = (.error e, w') ∧ Same w w' := by
    cases hf : (w.tape 0).fault with
    | some e =>
      have hask : exec (path_exists (d.path.join z.val)) w = (.error e, w.next) := by
        rw [path_exists, exec_ask, hf]
      exact ⟨e, w.next, by rw [delete_name, exec_bind_error hask], same_next w⟩
    | none =>
      have hask : exec (path_exists (d.path.join z.val)) w = (.ok true, w.next) := by
        rw [path_exists, exec_ask, hf, hthere]
      obtain ⟨e, u, hu, hsame⟩ := rmtree_of_file hat (w := w.next) hfile
      have hguard : ∃ e', exec (guarded s!"destination '{d.name}': delete failed: "
          (rmtree (d.path.join z.val) false)) w.next = (.error e', u) := by
        rw [guarded, exec_tryCatch, hu]
        cases e <;> exact ⟨_, rfl⟩
      obtain ⟨e', he'⟩ := hguard
      refine ⟨e', u, ?_, trans_of Same (same_next w) hsame⟩
      rw [delete_name, exec_bind_ok hask, if_pos rfl, he']
  obtain ⟨e, u, hu, hsame⟩ := hfails
  rw [delete, exec_bind_error hu]
  exact hsame

/-- A delete of the id `i` reaches the directory `y` of `P`: under the id's own name, or under its
name with the suffix when no file stands at the own name, or because the id is no name and leads
to `P` or above. -/
def Reaches (t : Fs) (P : Loc) (i : String) (y : Name) : Prop :=
  y.val = i ∨
    (y.val = i ++ PARTIAL_SUFFIX ∧ ∀ z : Name, z.val = i → t.isFile (P ++ [z]) = false) ∨
    i = "" ∨ i = "." ∨ i = ".."

/-- A file in the way does not come back. -/
theorem Reaches.of_uproots {t t' : Fs} {P : Loc} {i : String} {y : Name} (h : Reaches t P i y)
    (hup : FileTree.Uproots t t') : Reaches t' P i y := by
  rcases h with hy | ⟨hy, hfree⟩ | hdotted
  · exact .inl hy
  · refine .inr (.inl ⟨hy, fun z hz => ?_⟩)
    have hno := hfree z hz
    rcases hup (P ++ [z]) with heq | hgone
    · exact (FileTree.isFile_congr heq).trans hno
    · simp [FileTree.isFile, hgone _ (List.prefix_refl _)]
  · exact .inr (.inr hdotted)

/-- What the directories of `P` hold, apart from `y`. -/
def otherSpots (t : Fs) (P : Loc) (y : Name) : Set Spot :=
  {q | ∃ x, x ≠ y ∧ t.kind (P ++ [x]) = some .dir ∧ q ∈ below none (P ++ [x])}

theorem not_mem_otherSpots {t : Fs} {P : Loc} {y : Name} (r : Loc) :
    (none, P ++ [y] ++ r) ∉ otherSpots t P y := by
  rintro ⟨x, hxy, -, -, hx⟩
  exact hxy (prefix_entry_iff.mp hx)

/-- A delete that does not reach `y` removes nothing but other directories. -/
theorem delete_from_others {d : LocalDestination} {P : Loc} (hp : d.path.At P) {w₀ : World}
    {x y : Name} (hnot : ¬ Reaches w₀.fs P (listedId x) y) :
    Moves (RemovesFrom (otherSpots w₀.fs P y) w₀) (d.delete (listedId x)) := by
  have hlegal : Legal (listedId x) := by
    rcases listedId_legal_or x with h | h
    · exact h
    · exact absurd (.inr (.inr h)) hnot
  obtain ⟨z, hz⟩ : ∃ z : Name, z.val = listedId x := ⟨⟨_, hlegal⟩, rfl⟩
  rw [← hz] at hnot ⊢
  have hname : ∀ u : Name, u ≠ y →
      Moves (RemovesFrom (otherSpots w₀.fs P y) w₀) (d.delete_name u.val) := by
    intro u hu
    refine delete_name_from (fun hdir => ?_)
    rw [(hp.join u).loc_eq] at hdir ⊢
    exact fun q hq => ⟨u, hu, hdir, hq⟩
  have hzy : z ≠ y := fun h => hnot (.inl (congrArg Subtype.val h).symm)
  by_cases hpartial : partialName z = y
  · -- a file of the id's own name is in the way, and it is there to the end
    have hfile : w₀.fs.isFile (P ++ [z]) = true := by
      by_contra hno
      refine hnot (.inr (.inl ⟨by rw [← hpartial]; rfl, fun u hu => ?_⟩))
      rw [Subtype.ext hu]
      simpa using hno
    intro w hw
    have hkept : w.fs.isFile (P ++ [z]) = true := by
      refine (FileTree.isFile_congr (hw.fs_kind ?_)).trans hfile
      rintro ⟨u, -, hdir, -, hu⟩
      rw [show P ++ [z] = P ++ [z] ++ [] by simp, prefix_entry_iff] at hu
      rw [hu] at hdir
      rw [FileTree.isFile_of_dir hdir] at hfile
      cases hfile
    exact (delete_of_file hp hkept).removes _
  · exact Moves.bind (hname z hzy) (fun _ => hname (partialName z) hpartial)

/-- In a run in which no call fails a delete that reaches `y` removes it. -/
theorem delete_reaches {d : LocalDestination} {P : Loc} (hp : d.path.At P) {x y : Name} {v : World}
    (hv : Calm v) (hroot : v.fs.isDir P = true) (hparent : v.fs.isDir P.dropLast = true)
    (hdir : v.fs.isDir (P ++ [y]) = true) (h : Reaches v.fs P (listedId x) y) :
    (exec (d.delete (listedId x)) v).2.fs.kind (P ++ [y]) = none := by
  rcases listedId_legal_or x with hlegal | hdotted
  · rcases h with hy | ⟨hy, hfree⟩ | hdotted
    · rw [← hy]
      exact delete_clears hv ((hp.join y).find _) hdir (List.prefix_refl _)
        (.inr ⟨hp.join y, by simp⟩)
    · obtain ⟨z, hz⟩ : ∃ z : Name, z.val = listedId x := ⟨⟨_, hlegal⟩, rfl⟩
      obtain rfl : y = partialName z := Subtype.ext (by rw [hy, ← hz]; rfl)
      rw [← hz]
      exact delete_clears_partial hp hv (hfree z hz) hdir
    · obtain ⟨h₁, h₂, h₃, -⟩ := hlegal
      rcases hdotted with h | h | h
      · exact absurd h h₁
      · exact absurd h h₂
      · exact absurd h h₃
  · exact delete_dotted_clears hp hdotted hv hroot hparent (List.prefix_append _ _) (.inl (by simp))

section

variable (cwd : Loc) (nodes : String → RemoteNode) (config : Config) (dest : DestinationConfig)
  (now : Datetime) (in_progress_id : Option String) (t₀ : Instant) (y : Name)

/-- A purge that finds the tree `t` leaves the directory `y` and all it holds as they were,
whatever calls fail. -/
def PurgeLeaves (t : Fs) : Prop :=
  ∀ s : Pipe, s.world.fs = t → ∀ r,
    (exec (purge_one_destination (site cwd nodes) config dest now false in_progress_id)
      s).2.world.fs.lookup (localRoot cwd dest ++ [y] ++ r) =
        t.lookup (localRoot cwd dest ++ [y] ++ r)

/-- Less than the time of grace has passed since `s`. -/
def Recent (s : Instant) : Prop :=
  t₀ - s < config.retention.incomplete_grace_hours * 3600000000

/-- Something was made, written or removed within the time of grace. -/
def RecentlyModified (history : List (TreeEvent Name String)) : Prop :=
  ∃ e ∈ history, e.Modifies ∧ Recent config t₀ e.time

/-- No delete of the purge that finds `t'` reaches the directory `y`, which was as in `t` before
the history. -/
structure Sheltered (t t' : Fs) (history : List (TreeEvent Name String)) : Prop where
  /-- The directory's own time is recent, or its id is in progress. -/
  own : Reaches t' (localRoot cwd dest) (listedId y) y →
    some (listedId y) = in_progress_id ∨ Recent config t₀
      (ownTime (localRoot cwd dest ++ [y]) history (mtimeAt t (localRoot cwd dest ++ [y])))
  others : ∀ x, x ≠ y → DueDir config dest in_progress_id t₀ t' (localRoot cwd dest) x →
    ¬ Reaches t' (localRoot cwd dest) (listedId x) y

end

section

variable {cwd : Loc} {nodes : String → RemoteNode} {config : Config} {dest : DestinationConfig}
  {now : Datetime} {in_progress_id : Option String} {t₀ : Instant} {y : Name} {P : Loc}

instance (s : Instant) : Decidable (Recent config t₀ s) :=
  inferInstanceAs (Decidable (_ < _))

/-- An incomplete directory is due when its own time is not recent. -/
theorem dueDir_incomplete {t : Fs} (hdir : t.kind (P ++ [y]) = some .dir)
    (hinc : (recordOf t P y).complete = false) : DueDir config dest in_progress_id t₀ t P y ↔
      ¬ (some (listedId y) = in_progress_id ∨ Recent config t₀ (mtimeAt t (P ++ [y]))) := by
  have htime : (recordOf t P y).stored_at.instant = some (mtimeAt t (P ++ [y])) := by
    unfold recordOf
    cases stripSuffix PARTIAL_SUFFIX y.val <;> simp [Datetime.utc, Datetime.instant]
  unfold DueDir Due Spared Recent
  rw [hinc, htime, recordOf_id]
  simp [hdir]

/-- Nothing reaches a directory that is sheltered. -/
theorem not_reached {t t' : Fs} {history : List (TreeEvent Name String)}
    (hdir : t.kind (localRoot cwd dest ++ [y]) = some .dir)
    (hin : ∀ e ∈ history, e.Inside (localRoot cwd dest ++ [y])) (hrun : t.replay history = some t')
    (hinc : (recordOf t' (localRoot cwd dest) y).complete = false) :
    Sheltered cwd config dest in_progress_id t₀ y t t' history ↔
      ∀ x, DueDir config dest in_progress_id t₀ t' (localRoot cwd dest) x →
        ¬ Reaches t' (localRoot cwd dest) (listedId x) y := by
  obtain ⟨hthere, htime⟩ := own_replay hdir hin hrun
  have hdue : DueDir config dest in_progress_id t₀ t' (localRoot cwd dest) y ↔ _ :=
    dueDir_incomplete hthere hinc
  rw [htime] at hdue
  constructor
  · intro h x hx hreach
    by_cases hxy : x = y
    · subst hxy
      exact hdue.mp hx (h.own hreach)
    · exact h.others x hxy hx hreach
  · intro h
    refine ⟨fun hreach => ?_, fun x _ => h x⟩
    by_contra hnot
    exact h y (hdue.mpr hnot) hreach

/-- A directory that no due id reaches is left alone, whatever calls fail. -/
theorem purge_leaves_of_unreached (hd : dest.IsLocal) (hnow : now.instant = some t₀) {t : Fs}
    (h : Dated t (localRoot cwd dest) → config.retention.incomplete_grace_hours < 24 * 1000000000 →
      ∀ x, DueDir config dest in_progress_id t₀ t (localRoot cwd dest) x →
        ¬ Reaches t (localRoot cwd dest) (listedId x) y) :
    PurgeLeaves cwd nodes config dest now in_progress_id y t := by
  rintro s rfl r
  have hp := hd.at cwd
  rcases purge_one_cases (Prod.eta (exec (purge_one_destination (site cwd nodes) config dest now
    false in_progress_id) s)).symm with
    ⟨r', hlist, -⟩ | ⟨stored, plan, u, r', hlist, hplan, hdel, -⟩
  · rw [hd.build] at hlist
    have hsame : Same s.world _ := ((list_backups_reads hp).moves).of_exec hlist
    rw [hsame.fs]
  · rw [hd.build] at hlist hdel
    obtain ⟨hsame, -, hdated, rfl⟩ := list_backups_ok hp hlist
    have hgrace := grace_of_plan hnow hplan
    have hfrom := (delete_planned_moves (R := RemovesFrom (otherSpots s.world.fs
      (localRoot cwd dest) y) s.world) (fun i hi => by
        obtain ⟨x, rfl, hx⟩ := (mem_delete_iff_due hnow hplan).mp hi
        exact delete_from_others hp (h hdated hgrace x hx)) false).of_exec hdel
    have hstart := hsame.removes (otherSpots s.world.fs (localRoot cwd dest) y)
    have hrem := trans_of _ hstart (hfrom hstart)
    refine hrem.lookup none _ (not_mem_otherSpots r) (fun x => ?_)
    rw [List.append_assoc]
    exact not_mem_otherSpots (r ++ [x])

/-- A directory that the id of a due directory reaches is gone after a purge in which no call
fails. -/
theorem calm_purge_reaches (hd : dest.IsLocal) (hnow : now.instant = some t₀) {t : Fs}
    (ht : t.Housed) (hdir : t.kind (localRoot cwd dest ++ [y]) = some .dir)
    (hdated : Dated t (localRoot cwd dest))
    (hgrace : config.retention.incomplete_grace_hours < 24 * 1000000000) {x : Name}
    (hx : DueDir config dest in_progress_id t₀ t (localRoot cwd dest) x)
    (hreach : Reaches t (localRoot cwd dest) (listedId x) y) :
    (exec (purge_one_destination (site cwd nodes) config dest now false in_progress_id)
      ⟨smallWorld t, []⟩).2.world.fs.kind (localRoot cwd dest ++ [y]) = none := by
  have hp := hd.at cwd
  have hroot : t.kind (localRoot cwd dest) = some .dir := ht _ y (by rw [hdir]; simp)
  have hparent := ht.parent hroot
  obtain ⟨plan, hplan⟩ : ∃ plan, planOf config dest now in_progress_id t (localRoot cwd dest) =
    .ok plan := exists_plan hnow _ _ hgrace
  have hmem := (mem_delete_iff_due hnow hplan).mpr ⟨x, rfl, hx⟩
  obtain ⟨v, hv, hbefore, hafter⟩ := calm_purge_visits hd (R := Uproots) (fun h => h.uproots)
    (delete_uproots _) hnow hroot hdated hplan hmem
  by_contra hend
  -- were it there at the end, it would have been there when the id had its turn
  have hback : ∀ l, l <+: localRoot cwd dest ++ [y] → v.fs.kind l = t.kind l := by
    intro l hl
    have hmid := hafter.back hend (List.prefix_refl _)
    rw [hmid] at hend
    have hstart := (delete_uproots (LocalDestination.from_config cwd dest) (listedId x) v).back hend
      (List.prefix_refl _)
    rw [hstart] at hend
    exact hbefore.back hend hl
  have hvdir := (hback _ (List.prefix_refl _)).trans hdir
  have hvroot := (hback _ (List.prefix_append _ _)).trans hroot
  have hvparent :=
    (hback _ ((List.dropLast_prefix _).trans (List.prefix_append _ _))).trans hparent
  have hvreach := hreach.of_uproots hbefore
  have hgone := delete_reaches hp hv ((FileTree.isDir_iff _ _).mpr hvroot)
    ((FileTree.isDir_iff _ _).mpr hvparent) ((FileTree.isDir_iff _ _).mpr hvdir) hvreach
  rw [hafter.back hend (List.prefix_refl _)] at hend
  exact hend hgone

/-- After a history inside an incomplete generation directory in which something was modified
within the time of grace, every purge leaves the directory alone if and only if, when it gets as
far as a plan, the directory is sheltered. -/
theorem grace_protects_iff (hd : dest.IsLocal) (hnow : now.instant = some t₀) {t t' : Fs}
    {history : List (TreeEvent Name String)} (ht : t.Housed)
    (hdir : t.kind (localRoot cwd dest ++ [y]) = some .dir)
    (hin : ∀ e ∈ history, e.Inside (localRoot cwd dest ++ [y])) (hrun : t.replay history = some t')
    (hinc : (recordOf t' (localRoot cwd dest) y).complete = false) :
    (RecentlyModified config t₀ history →
      PurgeLeaves cwd nodes config dest now in_progress_id y t') ↔
    (RecentlyModified config t₀ history → Dated t' (localRoot cwd dest) →
      config.retention.incomplete_grace_hours < 24 * 1000000000 →
        Sheltered cwd config dest in_progress_id t₀ y t t' history) := by
  have hreached : Sheltered cwd config dest in_progress_id t₀ y t t' history ↔ _ :=
    not_reached hdir hin hrun hinc
  obtain ⟨hthere, -⟩ := own_replay hdir hin hrun
  constructor
  · intro h hrecent hdated hgrace
    refine hreached.mpr (fun x hx hreach => ?_)
    have hgone := @calm_purge_reaches cwd nodes _ _ _ _ _ _ hd hnow _ (housed_replay ht hrun) hthere
      hdated hgrace _ hx hreach
    have hleft := h hrecent ⟨smallWorld t', []⟩ rfl []
    rw [List.append_nil] at hleft
    have hkind := (FileTree.kind_eq_of_lookup_eq hleft).trans hthere
    cases hgone.symm.trans hkind
  · intro h hrecent
    refine purge_leaves_of_unreached hd hnow (fun hdated hgrace => ?_)
    exact hreached.mp (h hrecent hdated hgrace)

end

/-- A generation on its way since thirty hours: `/b/p-1.partial` with a directory in it. -/
def transferTree : Fs :=
  (smallTree.create [entry "b", entry "p-1.partial"] .dir 1699892000000000).create
    [entry "b", entry "p-1.partial", entry "db"] .dir 1699892000000000

/-- A file is begun in that directory and still written to a second before the purge. -/
def deepHistory : List (TreeEvent Name String) :=
  [⟨.create [entry "b", entry "p-1.partial", entry "db", entry "ibdata1"] (.file ""),
      1699892001000000⟩,
    ⟨.write [entry "b", entry "p-1.partial", entry "db", entry "ibdata1"] "rows",
      1699999999000000⟩]

/-- With the default grace of a day the purge deletes the generation. -/
theorem deep_write_unprotected :
    parse_config (smallTable "/w" "p" "/b" 1) = .ok (smallConfig "/w" "p" "/b" 1) ∧
      ∃ t', transferTree.replay deepHistory = some t' ∧
        (∀ e ∈ deepHistory, e.Inside [entry "b", entry "p-1.partial"]) ∧
        (recordOf t' [entry "b"] (entry "p-1.partial")).complete = false ∧
        RecentlyModified (smallConfig "/w" "p" "/b" 1) 1700000000000000 deepHistory ∧
        ¬ PurgeLeaves [] smallNodes (smallConfig "/w" "p" "/b" 1) (smallDestination "/b" 1)
          (Datetime.utc 1700000000000000) none (entry "p-1.partial") t' := by
  refine ⟨rfl, _, rfl, by decide, by decide, ⟨_, List.mem_cons_of_mem _ List.mem_cons_self,
    trivial, by decide⟩, fun h => ?_⟩
  have hend := congrArg Option.isSome (h ⟨smallWorld _, []⟩ rfl [])
  revert hend
  decide +kernel

/-- Then an entry is made in the directory of the generation itself. -/
def freshHistory : List (TreeEvent Name String) := deepHistory ++
  [⟨.create [entry "b", entry "p-1.partial", entry "backup.log"] (.file ""), 1699999999500000⟩]

/-- Now the generation is left alone. -/
theorem fresh_entry_protected : ∃ t', transferTree.replay freshHistory = some t' ∧
    PurgeLeaves [] smallNodes (smallConfig "/w" "p" "/b" 1) (smallDestination "/b" 1)
      (Datetime.utc 1700000000000000) none (entry "p-1.partial") t' := by
  obtain ⟨t', hrun, honly⟩ : ∃ t', transferTree.replay freshHistory = some t' ∧
      dirsIn t' (localRoot [] (smallDestination "/b" 1)) = [entry "p-1.partial"] :=
    ⟨_, rfl, by decide⟩
  have hrecent : RecentlyModified (smallConfig "/w" "p" "/b" 1) 1700000000000000 freshHistory :=
    ⟨⟨.create [entry "b", entry "p-1.partial", entry "backup.log"] (.file ""), 1699999999500000⟩,
      by decide, trivial, by decide⟩
  have hinc : (recordOf t' (localRoot [] (smallDestination "/b" 1))
      (entry "p-1.partial")).complete = false := by
    rw [recordOf_suffixed (s := "p-1") (by decide)]
  refine ⟨t', hrun, (grace_protects_iff ⟨rfl, by decide⟩ rfl (FileTree.housed_of_locs (by decide))
    (by decide) (by decide) hrun hinc).mpr (fun _ _ _ => ⟨fun _ => .inr (by decide), ?_⟩) hrecent⟩
  intro x hx hdue
  have hmem := mem_dirsIn.mpr hdue.1
  rw [honly, List.mem_singleton] at hmem
  exact absurd hmem hx

end MbKeeper
