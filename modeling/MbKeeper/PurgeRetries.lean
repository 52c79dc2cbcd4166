import MbKeeper.PurgeFrame
import MbKeeper.PurgeLaws
import MbKeeper.PurgeLoop
import MbKeeper.SshRetention

/-!
# Purges that are tried again

A purge goes on after a delete that failed, so the next one finds what the first
left. `PurgesFaithfully` is what a purge needs of the calls it makes: its listing
reports the entries, a delete that returns takes its id out of them, and a call
that raises leaves them. Both backends meet it where the names of one id are not
those of another and a delete that raises had no effect.
-/
namespace MbKeeper

section

variable (D : Destination) (entries : World → List StoredBackup)

/-- A listing reports the entries, and leaves them. -/
structure ListsFaithfully (w : World) : Prop where
  reports : ∀ stored, (exec D.list_backups w).1 = .ok stored → stored = entries w
  leaves : entries (exec D.list_backups w).2 = entries w

/-- A delete that raises leaves the entries. -/
def FailsHarmlessly (i : String) (w : World) : Prop :=
  ∀ e, (exec (D.delete i) w).1 = .error e → entries (exec (D.delete i) w).2 = entries w

/-- A delete that returns takes the id out of the entries, one that raises leaves them. -/
structure DeletesFaithfully (i : String) (w : World) : Prop where
  takes : (exec (D.delete i) w).1 = .ok () →
    entries (exec (D.delete i) w).2 = remaining (entries w) [i]
  fails : FailsHarmlessly D entries i w

/-- It holds of each delete, one after the other from `w`. -/
def InTurn (holds : String → World → Prop) : List String → World → Prop
  | [], _ => True
  | i :: ids, w => holds i w ∧ InTurn holds ids (exec (D.delete i) w).2

variable {D} in
/-- Where every delete leaves what holds of an id, that may be used at the turn of the id. -/
theorem InTurn.upgrade {holds holds' owned : String → World → Prop} {ids : List String} {w : World}
    (hturn : InTurn D holds ids w)
    (hstep : ∀ i j w, owned i w → owned j w → owned j (exec (D.delete i) w).2)
    (himp : ∀ i w, owned i w → holds i w → holds' i w) (howned : ∀ i ∈ ids, owned i w) :
    InTurn D holds' ids w := by
  induction ids generalizing w with
  | nil => trivial
  | cons i ids ih =>
    have hown : owned i w := howned i List.mem_cons_self
    exact ⟨himp i w hown hturn.1,
      ih hturn.2 (fun j hj => hstep i j w hown (howned j (List.mem_cons_of_mem _ hj)))⟩

/-- The calls of a purge from `w`: the listing, and the deletes of the plan after it. -/
structure PurgesFaithfully (keep grace_hours : ℕ) (now : Datetime) (in_progress_id : Option String)
    (w : World) : Prop where
  list : ListsFaithfully D entries w
  delete : ∀ plan, select_purge (entries w) keep grace_hours now in_progress_id = .ok plan →
    InTurn D (DeletesFaithfully D entries) plan.delete (exec D.list_backups w).2

end

section

variable {site : Site} {config : Config} {dest : DestinationConfig} {now : Datetime}
  {in_progress_id : Option String} {D : Destination} {entries : World → List StoredBackup}

/-- What is reported as deleted is what is gone. -/
theorem delete_planned_faithful {ids : List String} {s s' : Pipe} {res : List String × Bool}
    (hturn : InTurn D (DeletesFaithfully D entries) ids s.world)
    (h : exec (delete_planned dest D false ids) s = (.ok res, s')) :
    res.1 ⊆ ids ∧ (res.2 = false → res.1 = ids) ∧
      entries s'.world = remaining (entries s.world) res.1 := by
  induction ids generalizing s s' res with
  | nil =>
    obtain ⟨rfl, rfl⟩ := exec_pure_eq_ok h
    simp [remaining]
  | cons i ids ih =>
    obtain ⟨hfirst, hturn⟩ := hturn
    obtain ⟨outcome, u, hu, h⟩ := exec_bind_eq_ok h
    obtain ⟨rest, v, hv, h⟩ := exec_bind_eq_ok h
    rw [delete_one, if_neg (by simp)] at hu
    rcases attempt_cases hu with ⟨_, hm, ho⟩ | ⟨message, hm, ho⟩ | ⟨_, -, -, ho⟩
    · have hdelete := (exec_perform_ok hm).1
      rw [hdelete] at hturn
      obtain ⟨hsub, hall, hleft⟩ := ih hturn hv
      have hgone : entries u.world = remaining (entries s.world) [i] := by
        have := hfirst.takes
        rw [hdelete] at this
        exact this rfl
      obtain rfl := Except.ok.inj ho
      obtain ⟨rfl, rfl⟩ := exec_pure_eq_ok h
      refine ⟨List.cons_subset_cons _ hsub, fun hf => by rw [hall hf], ?_⟩
      rw [hleft, hgone, ← remaining_append]
      rfl
    · have hdelete := (exec_perform_error hm).1
      rw [hdelete] at hturn
      obtain ⟨hsub, -, hleft⟩ := ih hturn hv
      have hstill : entries u.world = entries s.world := by
        have := hfirst.fails (.destination message)
        rw [hdelete] at this
        exact this rfl
      obtain rfl := Except.ok.inj ho
      obtain ⟨rfl, rfl⟩ := exec_pure_eq_ok h
      refine ⟨fun j hj => List.mem_cons_of_mem _ (hsub hj), fun hf => (by cases hf), ?_⟩
      rw [hleft, hstill]
    · cases ho

/-- A purge that ends could not list, or deleted some of the ids of its plan, all of them when it
reports no error. -/
theorem purge_one_faithful {plan : PurgePlan} {s s' : Pipe} {res : DestinationPurgeResult × Bool}
    (hfaith : PurgesFaithfully (site.build_destination dest config.transfer) entries dest.keep
      config.retention.incomplete_grace_hours now in_progress_id s.world)
    (hplan : select_purge (entries s.world) dest.keep config.retention.incomplete_grace_hours now
      in_progress_id = .ok plan)
    (h : exec (purge_one_destination site config dest now false in_progress_id) s = (.ok res, s')) :
    res.1.deleted ⊆ plan.delete ∧
      (res.2 = false → res.1.deleted = plan.delete ∧ res.1.kept = plan.keep) ∧
      entries s'.world = remaining (entries s.world) res.1.deleted := by
  rcases purge_one_cases h with
    ⟨r, hlist, hstopped⟩ | ⟨stored, plan', u, r, hlist, hplan', hrun, hres⟩
  · obtain ⟨hfailed, hnone⟩ := hstopped res rfl
    have hleaves := hfaith.list.leaves
    rw [hlist] at hleaves
    rw [hnone, hfailed]
    have hall : remaining (entries s.world) [] = entries s.world := by simp [remaining]
    exact ⟨List.nil_subset _, fun hf => (by cases hf), hleaves.trans hall.symm⟩
  · have hleaves := hfaith.list.leaves
    have hturn := hfaith.delete plan hplan
    have hreports := hfaith.list.reports stored
    rw [hlist] at hleaves hturn hreports
    rw [hreports rfl, hplan] at hplan'
    obtain rfl := Except.ok.inj hplan'
    cases r with
    | error e => cases hres
    | ok o =>
      obtain rfl := Except.ok.inj hres
      obtain ⟨hsub, hall, hleft⟩ := delete_planned_faithful hturn hrun
      exact ⟨hsub, fun hf => ⟨hall hf, rfl⟩, by rw [hleft, hleaves]⟩

variable (site config dest now in_progress_id entries)

/-- Purges of one destination at one time, each after whatever left its entries as they were, with
the ids they deleted. -/
inductive Purges : World → List String → World → Prop where
  | none (w : World) : Purges w [] w
  | purge {w v : World} {u u' : Pipe} {removed : List String} {res : DestinationPurgeResult × Bool}
      (h : Purges w removed v) (hsame : entries u.world = entries v)
      (hfaith : PurgesFaithfully (site.build_destination dest config.transfer) entries dest.keep
        config.retention.incomplete_grace_hours now in_progress_id u.world)
      (hrun : exec (purge_one_destination site config dest now false in_progress_id) u =
        (.ok res, u')) : Purges w (removed ++ res.1.deleted) u'.world

variable {site config dest now in_progress_id entries}

theorem Purges.left {w v : World} {removed : List String} {plan : PurgePlan}
    (hnodup : ((entries w).map (·.backup_id)).Nodup)
    (hplan : select_purge (entries w) dest.keep config.retention.incomplete_grace_hours now
      in_progress_id = .ok plan)
    (h : Purges site config dest now in_progress_id entries w removed v) :
    removed ⊆ plan.delete ∧ entries v = remaining (entries w) removed := by
  induction h with
  | none => exact ⟨List.nil_subset _, by simp [remaining]⟩
  | @purge v u u' removed res _ hsame hfaith hrun ih =>
    obtain ⟨hsub, hleft⟩ := ih
    have hagain := select_purge_remaining hnodup hplan hsub
    rw [← hleft, ← hsame] at hagain
    obtain ⟨hdeleted, -, hentries⟩ := purge_one_faithful hfaith hagain hrun
    refine ⟨List.append_subset.mpr ⟨hsub, fun i hi => ?_⟩, ?_⟩
    · exact List.mem_of_mem_filter (hdeleted hi)
    · rw [hentries, hsame, hleft, remaining_append]

end

namespace LocalDestination

variable {d : LocalDestination} {P : Loc} {x : Name} {w w' : World}

/-- The directories named like the id `x`, with and without the suffix, are listed with it. -/
def Owns (t : Fs) (P : Loc) (x : Name) : Prop :=
  ∀ y ∈ dirsIn t P, y = x ∨ y = partialName x → listedId y = x.val

theorem Owns.removes {S : Set Spot} (h : Owns w.fs P x) (hr : Removes S w w') :
    Owns w'.fs P x := by
  intro y hy hname
  refine h y (mem_dirsIn.mpr ?_) hname
  exact hr.kind_of_some (mem_dirsIn.mp hy)

/-- A delete that returned took the records of its id, and left the others in their order. -/
theorem delete_takes (hp : d.path.At P) (howns : Owns w.fs P x)
    (h : exec (d.delete x.val) w = (.ok (), w')) :
    records w'.fs P = remaining (records w.fs P) [x.val] := by
  have hremoves := (d.delete_removes x.val).of_exec h
  have horder : SameOrder w w' := (delete_order d x.val).of_exec h
  rw [delete_spots hp] at hremoves
  have hother : ∀ y ∈ dirsIn w.fs P, listedId y ≠ x.val → ∀ r,
      (none, P ++ [y] ++ r) ∉ below none (P ++ [x]) ∪ below none (P ++ [partialName x]) := by
    rintro y hy hne r (⟨-, hq⟩ | ⟨-, hq⟩)
    · exact hne (howns y hy (.inl (prefix_entry_iff.mp hq).symm))
    · exact hne (howns y hy (.inr (prefix_entry_iff.mp hq).symm))
  have hdir : ∀ y, w'.fs.isDir (P ++ [y]) =
      (decide (listedId y ≠ x.val) && w.fs.isDir (P ++ [y])) := by
    intro y
    by_cases hid : listedId y = x.val
    · rw [FileTree.isDir, delete_ok_listed hp h hid]
      simp [hid]
    · rw [decide_eq_true hid, Bool.true_and]
      cases hy : w.fs.isDir (P ++ [y]) with
      | true =>
        have hmem : y ∈ dirsIn w.fs P := mem_dirsIn.mpr ((FileTree.isDir_iff _ _).mp hy)
        have hspot := hother y hmem hid []
        rw [List.append_nil] at hspot
        rw [FileTree.isDir_congr (hremoves.fs_kind hspot), hy]
      | false => exact hremoves.isDir_eq_false hy
  have hdirs : dirsIn w'.fs P = (dirsIn w.fs P).filter (fun y => listedId y ≠ x.val) := by
    rw [dirsIn_eq, dirsIn_eq, horder, filter_dedup, List.filter_filter]
    simp only [hdir]
  have hrecord : ∀ y ∈ dirsIn w'.fs P, recordOf w'.fs P y = recordOf w.fs P y := by
    intro y hy
    rw [hdirs, List.mem_filter, decide_eq_true_eq] at hy
    have hspot := hother y hy.1 hy.2
    have hroot := hspot []
    rw [List.append_nil] at hroot
    have hlookup : w'.fs.lookup (P ++ [y]) = w.fs.lookup (P ++ [y]) :=
      hremoves.lookup none _ hroot (fun z => hspot [z])
    have hfile : w'.fs.isFile (P ++ [y] ++ [META_FILENAME]) =
        w.fs.isFile (P ++ [y] ++ [META_FILENAME]) :=
      FileTree.isFile_congr (hremoves.fs_kind (hspot _))
    unfold recordOf mtimeAt
    rw [hlookup, hfile]
  unfold records remaining
  rw [List.map_congr_left hrecord, hdirs, List.filter_map]
  congr 1
  apply List.filter_congr
  intro y _
  simp [recordOf_id]

/-- What a local purge needs of its calls holds where the ids of the plan own their names and the
deletes that raise leave the records. -/
theorem purges_faithfully (hp : d.path.At P) {keep grace_hours : ℕ} {now : Datetime}
    {in_progress_id : Option String}
    (hids : ∀ plan, select_purge (records w.fs P) keep grace_hours now in_progress_id = .ok plan →
      (∀ i ∈ plan.delete, ∃ x : Name, x.val = i ∧ Owns w.fs P x) ∧
        InTurn d.toDestination (FailsHarmlessly d.toDestination (fun w => records w.fs P))
          plan.delete (exec d.list_backups w).2) :
    PurgesFaithfully d.toDestination (fun w => records w.fs P) keep grace_hours now in_progress_id
      w := by
  have hsame : Same w (exec d.list_backups w).2 := (list_backups_reads hp).same w
  refine ⟨⟨fun stored hok => ?_, congrArg (records · P) hsame.fs⟩, fun plan hplan => ?_⟩
  · exact (list_backups_ok hp (exec_of_ok hok)).2.2.2
  · obtain ⟨howns, hfails⟩ := hids plan hplan
    rw [← hsame.fs] at howns
    have hkeep : ∀ i j v, (∃ x : Name, x.val = i ∧ Owns v.fs P x) →
        (∃ x : Name, x.val = j ∧ Owns v.fs P x) →
        ∃ x : Name, x.val = j ∧ Owns (exec (d.delete i) v).2.fs P x := by
      rintro i j v - ⟨y, rfl, hown⟩
      exact ⟨y, rfl, hown.removes (d.delete_removes i v)⟩
    refine hfails.upgrade hkeep ?_ howns
    rintro i v ⟨y, rfl, hown⟩ hfail
    exact ⟨fun hok => delete_takes hp hown (exec_of_ok hok), hfail⟩

end LocalDestination

namespace SSHDestination

variable {d : SSHDestination} {P : Loc} {x : Name} {w w' : World}

/-- What the script says of the remote path, directory by directory. -/
def entriesAt (d : SSHDestination) (P : Loc) (w : World) : List StoredBackup :=
  if (w.tree (some d.host)).isDir P then
    (globbed (w.tree (some d.host)) P).filterMap (reported d.node.shell (w.tree (some d.host)) P)
  else []

/-- Whatever is reported of the two directories of the id `x` is reported of `x`. -/
structure Owns (t : Fs) (P : Loc) (x : Name) : Prop where
  plain : stripSuffix PARTIAL_SUFFIX x.val = none
  building : t.isFile (P ++ [partialName x] ++ [META_FILENAME]) = false

theorem Owns.removes {S : Set Spot} (h : Owns (w.tree (some d.host)) P x) (hr : Removes S w w') :
    Owns (w'.tree (some d.host)) P x := by
  exact ⟨h.plain, hr.isFile_eq_false h.building⟩

theorem Owns.reported {t : Fs} {shell : Shell} {y : Name} {b : StoredBackup} (h : Owns t P x)
    (hb : reported shell t P y = some b) : b.backup_id = x.val ↔ y = x ∨ y = partialName x := by
  rcases reported_marked hb with ⟨-, hid, hfile⟩ | ⟨-, hs⟩
  · rw [hid]
    constructor
    · intro hy
      exact .inl (Subtype.ext hy)
    · rintro (rfl | rfl)
      · rfl
      · rw [h.building] at hfile
        cases hfile
  · constructor
    · intro hid
      rw [hid] at hs
      exact .inr (Subtype.ext (stripSuffix_eq_some.mp hs))
    · rintro (rfl | rfl)
      · rw [h.plain] at hs
        cases hs
      · rw [stripSuffix_partialName] at hs
        exact (Option.some.inj hs).symm

/-- A glob over fewer directories yields those of the names that are left. -/
theorem globbed_filter {t t' : Fs} {p : Name → Bool}
    (hdir : ∀ y, t'.kind (P ++ [y]) = some .dir ↔ t.kind (P ++ [y]) = some .dir ∧ p y = true) :
    globbed t' P = (globbed t P).filter p := by
  have hsorted : ∀ t : Fs, (globbed t P).Pairwise (fun y z => y.val ≤ z.val) := fun t =>
    List.pairwise_insertionSort (fun y z : Name => y.val ≤ z.val) _
  have hmem : ∀ y, y ∈ globbed t' P ↔ y ∈ (globbed t P).filter p := by
    intro y
    rw [List.mem_filter, mem_globbed, mem_globbed, hdir, and_right_comm]
  have hperm : (globbed t' P).Perm ((globbed t P).filter p) :=
    (List.perm_ext_iff_of_nodup (globbed_nodup t' P) ((globbed_nodup t P).filter p)).mpr hmem
  apply hperm.eq_of_pairwise _ (hsorted t') ((hsorted t).filter p)
  intro y z _ _ hyz hzy
  exact Subtype.ext (le_antisymm hyz hzy)

/-- A delete that returned took the lines of its id, and left the others. -/
theorem delete_takes (ha : d.Addresses P x) (howns : Owns (w.tree (some d.host)) P x)
    (h : exec (d.delete x.val) w = (.ok (), w')) :
    entriesAt d P w' = remaining (entriesAt d P w) [x.val] := by
  have hremoves := (delete_removes ha).of_exec h
  have hother : ∀ y, ¬(y = x ∨ y = partialName x) → ∀ r,
      (some d.host, P ++ [y] ++ r) ∉ spots d.host P x := by
    rintro y hy r (⟨-, hq⟩ | ⟨-, hq⟩)
    · exact hy (.inl (prefix_entry_iff.mp hq).symm)
    · exact hy (.inr (prefix_entry_iff.mp hq).symm)
  have hroot : (w'.tree (some d.host)).isDir P = (w.tree (some d.host)).isDir P := by
    apply FileTree.isDir_congr
    apply hremoves.kind
    rintro (⟨-, hq⟩ | ⟨-, hq⟩) <;>
    · have := hq.length_le
      simp at this
  have hglob : globbed (w'.tree (some d.host)) P =
      (globbed (w.tree (some d.host)) P).filter (fun y => ¬(y = x ∨ y = partialName x)) := by
    apply globbed_filter
    intro y
    rw [decide_eq_true_eq]
    by_cases hy : y = x ∨ y = partialName x
    · have hgone := delete_ok ha h hy []
      rw [List.append_nil] at hgone
      simp [hgone, hy]
    · have hspot := hother y hy []
      rw [List.append_nil] at hspot
      rw [hremoves.kind _ _ hspot, and_iff_left hy]
  have hline : ∀ y ∈ globbed (w'.tree (some d.host)) P,
      reported d.node.shell (w'.tree (some d.host)) P y =
        reported d.node.shell (w.tree (some d.host)) P y := by
    intro y hy
    rw [hglob, List.mem_filter, decide_eq_true_eq] at hy
    have hspot := hother y hy.2
    have hself := hspot []
    rw [List.append_nil] at hself
    have hlookup : (w'.tree (some d.host)).lookup (P ++ [y]) =
        (w.tree (some d.host)).lookup (P ++ [y]) :=
      hremoves.lookup (some d.host) _ hself (fun z => hspot [z])
    have hfile : (w'.tree (some d.host)).isFile (P ++ [y] ++ [META_FILENAME]) =
        (w.tree (some d.host)).isFile (P ++ [y] ++ [META_FILENAME]) :=
      FileTree.isFile_congr (hremoves.kind _ _ (hspot _))
    unfold reported classified reading LocalDestination.mtimeAt
    rw [hlookup, hfile]
  unfold entriesAt
  rw [hroot]
  by_cases hdir : (w.tree (some d.host)).isDir P = true
  · rw [if_pos hdir, if_pos hdir, List.filterMap_congr hline, hglob, remaining,
      List.filterMap_filter, List.filter_filterMap]
    apply List.filterMap_congr
    intro y _
    cases hb : reported d.node.shell (w.tree (some d.host)) P y with
    | none => simp
    | some b =>
      have hid := howns.reported hb
      by_cases hy : y = x ∨ y = partialName x
      · rw [Option.filter_some]
        simp [hy, hid.mpr hy]
      · rw [Option.filter_some]
        simp [hy, mt hid.mp hy]
  · rw [if_neg hdir, if_neg hdir]
    rfl

/-- What a purge over `ssh` needs of its calls holds where the shell writes every line as it is, the
ids of the plan are taken as they are written and own their names, and the deletes that raise leave
the entries. -/
theorem purges_faithfully (hp : d.path.path.At P) (hpath : Literal d.remote_path)
    {keep grace_hours : ℕ} {now : Datetime} {in_progress_id : Option String}
    (hlines : ∀ y ∈ globbed (w.tree (some d.host)) P,
      Echoes d.node.shell (w.tree (some d.host)) P y ∧ OneField y.val.toList)
    (hids : ∀ plan, select_purge (entriesAt d P w) keep grace_hours now in_progress_id = .ok plan →
      (∀ i ∈ plan.delete, ∃ x : Name, x.val = i ∧ Literal x.val ∧
        Owns (w.tree (some d.host)) P x) ∧
      InTurn d.toDestination (FailsHarmlessly d.toDestination (entriesAt d P)) plan.delete
        (exec d.list_backups w).2) :
    PurgesFaithfully d.toDestination (entriesAt d P) keep grace_hours now in_progress_id w := by
  have hlit : (RemoteCommand.list d.path).Literal := fun p hq => by
    rw [List.mem_singleton.mp hq]
    exact hpath
  have hmoves : Moves Same d.list_backups := by
    refine Moves.bind (fun w => (remote_run_left hlit (Prod.eta _).symm).list) (fun proc => ?_)
    exact liftExcept_moves _
  have hsame : Same w (exec d.list_backups w).2 := hmoves w
  refine ⟨⟨fun stored hok => ?_, ?_⟩, fun plan hplan => ?_⟩
  · unfold entriesAt
    by_cases hdir : (w.tree (some d.host)).isDir P = true
    · rw [if_pos hdir]
      exact parse_list_output_ok (fun y hy => (hlines y hy).1) (fun y hy => (hlines y hy).2)
        (list_backups_ok hp hpath (exec_of_ok hok) hdir)
    · rw [if_neg hdir]
      exact list_backups_absent hp hpath (exec_of_ok hok) hdir
  · change entriesAt d P (exec d.list_backups w).2 = _
    unfold entriesAt
    rw [hsame.tree]
  · obtain ⟨howns, hfails⟩ := hids plan hplan
    have hkeep :
        ∀ i j v, (∃ x : Name, x.val = i ∧ Literal x.val ∧ Owns (v.tree (some d.host)) P x) →
        (∃ x : Name, x.val = j ∧ Literal x.val ∧ Owns (v.tree (some d.host)) P x) →
        ∃ x : Name, x.val = j ∧ Literal x.val ∧
          Owns ((exec (d.delete i) v).2.tree (some d.host)) P x := by
      rintro i j v ⟨x, rfl, hx, -⟩ ⟨y, rfl, hy, hown⟩
      exact ⟨y, rfl, hy, hown.removes (delete_removes ⟨hp, hpath, hx⟩ v)⟩
    refine hfails.upgrade hkeep ?_ ?_
    · rintro i v ⟨y, rfl, hy, hown⟩ hfail
      exact ⟨fun hok => delete_takes ⟨hp, hpath, hy⟩ hown (exec_of_ok hok), hfail⟩
    · intro i hi
      obtain ⟨x, rfl, hx, hown⟩ := howns i hi
      exact ⟨x, rfl, hx, hown.removes (hsame.removes ∅)⟩

end SSHDestination

section

variable {site : Site} {config : Config} {dest : DestinationConfig} {now : Datetime}
  {in_progress_id : Option String} {entries : World → List StoredBackup}

/-- Deciding on what a purge that failed in part has left keeps the same ids and condemns the others
of the plan. Any purges at that time that between them deleted every id of the plan leave what one
purge without an error leaves, and one more purge deletes nothing. -/
theorem purges_converge {w : World} {plan : PurgePlan}
    (hnodup : ((entries w).map (·.backup_id)).Nodup)
    (hplan : select_purge (entries w) dest.keep config.retention.incomplete_grace_hours now
      in_progress_id = .ok plan) :
    (∀ removed ⊆ plan.delete, select_purge (remaining (entries w) removed) dest.keep
        config.retention.incomplete_grace_hours now in_progress_id =
      .ok ⟨plan.keep, plan.delete.filter (· ∉ removed)⟩) ∧
    (∀ (u u' : Pipe) (res : DestinationPurgeResult), entries u.world = entries w →
      PurgesFaithfully (site.build_destination dest config.transfer) entries dest.keep
        config.retention.incomplete_grace_hours now in_progress_id u.world →
      exec (purge_one_destination site config dest now false in_progress_id) u =
        (.ok (res, false), u') →
      entries u'.world = remaining (entries w) plan.delete) ∧
    (∀ removed v, Purges site config dest now in_progress_id entries w removed v →
      plan.delete ⊆ removed →
      entries v = remaining (entries w) plan.delete ∧
      ∀ (u u' : Pipe) (res : DestinationPurgeResult × Bool), entries u.world = entries v →
        PurgesFaithfully (site.build_destination dest config.transfer) entries dest.keep
          config.retention.incomplete_grace_hours now in_progress_id u.world →
        exec (purge_one_destination site config dest now false in_progress_id) u = (.ok res, u') →
        res.1.deleted = [] ∧ entries u'.world = entries v) := by
  refine ⟨fun removed hsub => select_purge_remaining hnodup hplan hsub, ?_, ?_⟩
  · intro u u' res hsame hfaith hrun
    rw [← hsame] at hplan
    obtain ⟨-, hall, hleft⟩ := purge_one_faithful hfaith hplan hrun
    rw [hleft, (hall rfl).1, hsame]
  · intro removed v hpurges hall
    obtain ⟨hsub, hleft⟩ := hpurges.left hnodup hplan
    refine ⟨?_, fun u u' res hsame hfaith hrun => ?_⟩
    · rw [hleft]
      apply List.filter_congr
      intro b _
      rw [decide_eq_decide]
      exact not_congr ⟨fun h => hsub h, fun h => hall h⟩
    · have hagain := select_purge_remaining hnodup hplan hsub
      rw [← hleft, ← hsame] at hagain
      obtain ⟨hdeleted, -, hentries⟩ := purge_one_faithful hfaith hagain hrun
      have hnone : plan.delete.filter (· ∉ removed) = [] :=
        List.filter_eq_nil_iff.mpr (fun i hi => by simpa using hall hi)
      have hempty : res.1.deleted = [] := List.subset_nil.mp (hnone ▸ hdeleted)
      rw [hentries, hempty, hsame]
      exact ⟨rfl, List.filter_eq_self.mpr (fun b _ => by simp)⟩

end

/-- The tree of `mixedTree`, with the removal of the first generation failing. -/
def stuckWorld : World :=
  { smallWorld mixedTree with
    tape := fun k => if k = 11 then { Reply.good 0 with fault := some (.os "denied") }
      else Reply.good 1700000000000000 }

def mixedPurge (s : Pipe) : Except Exn (DestinationPurgeResult × Bool) × Pipe :=
  exec (purge_one_destination (site [] smallNodes) (smallConfig "/w" "p" "/b" 1)
    (smallDestination "/b" 1) (Datetime.utc 1700000000000000) false none) s

/-- The worlds after none, one, two and three purges. -/
def mixedPipe : ℕ → Pipe
  | 0 => ⟨stuckWorld, []⟩
  | n + 1 => (mixedPurge (mixedPipe n)).2

def mixedRecords (w : World) : List StoredBackup := LocalDestination.records w.fs [entry "b"]

/-- The first purge deletes one id of two, the second the other. -/
theorem mixed_ran :
    (mixedPurge (mixedPipe 0)).1 = .ok (⟨"disk", ["p-0"], ["p-2"], ""⟩, true) ∧
      (mixedPurge (mixedPipe 1)).1 = .ok (⟨"disk", ["p-1"], ["p-2"], ""⟩, false) ∧
      (mixedPurge (mixedPipe 2)).1 = .ok (⟨"disk", [], ["p-2"], ""⟩, false) := by
  decide +kernel

abbrev MixedFaithful (n : ℕ) : Prop :=
  PurgesFaithfully smallLocal.toDestination mixedRecords 1 24 (Datetime.utc 1700000000000000) none
    (mixedPipe n).world

theorem mixed_faithful {n : ℕ} (ids : List Name)
    (hplan : select_purge (mixedRecords (mixedPipe n).world) 1 24 (Datetime.utc 1700000000000000)
      none = .ok ⟨["p-2"], ids.map (·.val)⟩)
    (howns : ∀ x ∈ ids, ∀ y ∈ LocalDestination.dirsIn (mixedPipe n).world.fs [entry "b"],
      y = x ∨ y = partialName x → LocalDestination.listedId y = x.val)
    (hturn : InTurn smallLocal.toDestination
      (FailsHarmlessly smallLocal.toDestination mixedRecords) (ids.map (·.val))
      (exec smallLocal.list_backups (mixedPipe n).world).2) : MixedFaithful n := by
  have hp : smallLocal.path.At [entry "b"] := ⟨⟨[], rfl, by decide⟩, rfl⟩
  apply LocalDestination.purges_faithfully hp
  intro plan h
  obtain rfl := Except.ok.inj (hplan.symm.trans h)
  refine ⟨fun i hi => ?_, hturn⟩
  obtain ⟨x, hx, rfl⟩ := List.mem_map.mp hi
  exact ⟨x, rfl, howns x hx⟩

theorem FailsHarmlessly.of_ok {D : Destination} {entries : World → List StoredBackup} {i : String}
    {w : World} (h : (exec (D.delete i) w).1 = .ok ()) : FailsHarmlessly D entries i w := by
  intro e he
  rw [h] at he
  cases he

/-- The removal that failed left everything. -/
theorem mixed_faithful_first : MixedFaithful 0 := by
  refine mixed_faithful [entry "p-1", entry "p-0"] (by decide +kernel) (by decide +kernel) ?_
  refine ⟨fun e _ => ?_, FailsHarmlessly.of_ok (by decide +kernel), trivial⟩
  decide +kernel

theorem mixed_faithful_second : MixedFaithful 1 :=
  mixed_faithful [entry "p-1"] (by decide +kernel) (by decide +kernel)
    ⟨FailsHarmlessly.of_ok (by decide +kernel), trivial⟩

theorem mixed_faithful_third : MixedFaithful 2 :=
  mixed_faithful [] (by decide +kernel) (by decide +kernel) trivial

/-- The first purge leaves one of its two deletes to the second, and the third has none to do. -/
theorem purges_converge_mixed :
    mixedRecords (mixedPipe 2).world = remaining (mixedRecords stuckWorld) ["p-1", "p-0"] ∧
      (mixedRecords (mixedPipe 3).world).map (·.backup_id) = ["p-2"] := by
  obtain ⟨hfirst, hsecond, hthird⟩ := mixed_ran
  have h := @purges_converge (site [] smallNodes) (smallConfig "/w" "p" "/b" 1)
    (smallDestination "/b" 1) (Datetime.utc 1700000000000000) none mixedRecords stuckWorld
    ⟨["p-2"], ["p-1", "p-0"]⟩ (by decide +kernel) (by decide +kernel)
  have hpurges := ((Purges.none stuckWorld).purge (u := mixedPipe 0) rfl mixed_faithful_first
    (Prod.ext hfirst rfl)).purge (u := mixedPipe 1) rfl mixed_faithful_second
    (Prod.ext hsecond rfl)
  obtain ⟨hleft, hagain⟩ := h.2.2 _ _ hpurges (by decide)
  obtain ⟨-, hsame⟩ := hagain (mixedPipe 2) (mixedPipe 3) _ rfl mixed_faithful_third
    (Prod.ext hthird rfl)
  refine ⟨hleft, ?_⟩
  rw [hsame]
  decide +kernel

end MbKeeper
