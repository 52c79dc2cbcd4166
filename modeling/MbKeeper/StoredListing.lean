import MbKeeper.LocalStore

/-!
# What a run stores and what a listing shows

A store is to add one complete generation to the listing of its destination and
to leave the other entries as they are, their times included. An id is the
configured prefix and a time, and the listing looks at one level of
directories, so the law is about the slashes of the prefix.
-/
namespace MbKeeper

/-- Outside `S` the files of this node are as they were, and their times. -/
def Untouched (S : Set Loc) (w w' : World) : Prop := ∀ q ∉ S, w'.fs.lookup q = w.fs.lookup q

namespace Untouched

variable {S S' : Set Loc} {w w' : World}

instance : Std.Refl (Untouched S) := ⟨fun _ _ _ => rfl⟩

instance : IsTrans World (Untouched S) := ⟨fun _ _ _ h h' q hq => (h' q hq).trans (h q hq)⟩

theorem mono (h : Untouched S w w') (hS : S ⊆ S') : Untouched S' w w' :=
  fun q hq => h q (fun hs => hq (hS hs))

theorem of_same (h : Same w w') : Untouched S w w' := fun q _ => by rw [h.fs]

end Untouched

theorem ask_untouched {α : Type} (S : Set Loc) (q : Reply → World → α) :
    Moves (Untouched S) (ask q) :=
      (LocalDestination.ask_same q).mono (fun _ _ h => Untouched.of_same h)

variable {p : Path} {l : Loc}

theorem mkdir_untouched (hp : p.At l) : Moves (Untouched {q | q <+: l}) (mkdir p) := by
  have hout : ∀ ps : List Loc, (∀ r ∈ ps, r ∈ p.chain) → ∀ (w : World) (s : Instant),
      Untouched {q | q <+: l} w (w.next.setTree none (w.fs.mkdirs ps s)) := by
    intro ps hps w s q hq
    rw [World.fs_setTree_none]
    refine FileTree.lookup_mkdirs _ _ (fun r hr => ?_)
    have hrl := hp.mem_chain.mp (hps r hr)
    constructor
    · rintro rfl
      exact hq hrl
    · rintro rfl
      exact hq ((List.dropLast_prefix r).trans hrl)
  intro w
  rw [mkdir, exec_primitive, World.fs_next]
  split_ifs
  · exact Untouched.of_same (same_next w)
  · exact Untouched.of_same (same_next w)
  · cases (w.tape 0).fault with
    | some e => exact hout _ (fun r hr => List.mem_of_mem_take hr) w _
    | none => exact hout _ (fun r hr => hr) w _

/-- A directory and what is below it, and the directory it is in. -/
def around (l : Loc) : Set Loc := {q | l <+: q ∨ q = l.dropLast}

theorem rmtree_untouched (hp : p.At l) (ig : Bool) :
    Moves (Untouched (around l)) (rmtree p ig) := by
  intro w
  rw [rmtree, exec_primitive, World.fs_next, hp.find]
  by_cases hdir : w.fs.isDir l = true
  · simp only [hdir, if_true]
    cases (w.tape 0).fault with
    | some e =>
      intro q hq
      rw [World.fs_setTree_none]
      refine FileTree.lookup_unlinkAll _ _ (fun r hr => ?_)
      have hlr : l <+: r := (by simpa using (List.mem_filter.mp hr).2 : l <+: r ∧ r ≠ []).1
      refine ⟨fun hrq => hq (.inl (hlr.trans hrq)), ?_⟩
      rintro rfl
      rcases eq_or_ne l r with rfl | hne
      · exact hq (.inr rfl)
      · obtain ⟨m, rfl⟩ := hlr
        have hm : m ≠ [] := fun hm => hne (by simp [hm])
        refine hq (.inl ?_)
        rw [List.dropLast_append_of_ne_nil hm]
        exact List.prefix_append _ _
    | none =>
      intro q hq
      have hclear : ∀ s, (w.fs.clear l s).lookup q = w.fs.lookup q := fun s =>
        FileTree.lookup_clear _ s (fun h => hq (.inl h))
      dsimp only
      split_ifs
      · rw [World.fs_setTree_none, FileTree.lookup_removeTree _ _ (fun h => hq (.inl h))
          (fun h => hq (.inr h)), hclear]
      · rw [World.fs_setTree_none, hclear]
  · simp only [hdir]
    exact Untouched.of_same (same_next w)

theorem copytree_untouched (src : Path) (hp : p.At l) (ignore : Name → Bool) :
    Moves (Untouched {q | l <+: q ∨ q <+: l}) (copytree src p ignore) := by
  have hout : ∀ (w : World) (a : Loc) (s : Instant) (sel : Loc → Bool) (time : ℤ → ℤ),
      Untouched {q | l <+: q ∨ q <+: l} w
        (w.next.setTree none ((w.fs.mkdirs p.chain s).copyTree a l sel time)) := by
    intro w a s sel time q hq
    rw [World.fs_setTree_none, FileTree.lookup_copyTree _ _ _ (fun h => hq (.inl h))]
    refine FileTree.lookup_mkdirs _ _ (fun r hr => ?_)
    have hrl := hp.mem_chain.mp hr
    constructor
    · rintro rfl
      exact hq (.inr hrl)
    · rintro rfl
      exact hq (.inr ((List.dropLast_prefix r).trans hrl))
  intro w
  rw [copytree, exec_primitive, World.fs_next, hp.find]
  cases src.find w.fs with
  | none => exact Untouched.of_same (same_next w)
  | some a =>
    cases (w.tape 0).fault with
    | some e =>
      dsimp only
      split_ifs
      · exact Untouched.of_same (same_next w)
      · exact Untouched.of_same (same_next w)
      · exact Untouched.of_same (same_next w)
      · exact hout w a _ _ _
      · exact Untouched.of_same (same_next w)
    | none =>
      dsimp only
      split_ifs
      · exact Untouched.of_same (same_next w)
      · exact Untouched.of_same (same_next w)
      · exact Untouched.of_same (same_next w)
      · exact hout w a _ _ _

theorem copy2_untouched (src : Path) (hp : p.At l) :
    Moves (Untouched (around l)) (copy2 src p) := by
  have hout : ∀ (w : World) (d : String) (s : Instant),
      Untouched (around l) w (w.next.setTree none (w.fs.write l d s)) := by
    intro w d s q hq
    rw [World.fs_setTree_none]
    refine FileTree.lookup_write _ _ _ ?_ (fun h => hq (.inr h))
    rintro rfl
    exact hq (.inl (List.prefix_refl _))
  intro w
  rw [copy2, exec_primitive, World.fs_next, hp.find]
  cases src.find w.fs with
  | none => exact Untouched.of_same (same_next w)
  | some a =>
    dsimp only
    split
    · cases (w.tape 0).fault with
      | some e =>
        dsimp only
        split_ifs
        · exact Untouched.of_same (same_next w)
        · exact hout w _ _
        · exact Untouched.of_same (same_next w)
      | none =>
        dsimp only
        split_ifs
        · exact Untouched.of_same (same_next w)
        · exact hout w _ _
    · exact Untouched.of_same (same_next w)

theorem rename_untouched {src dst : Path} {a b : Loc} (ha : src.At a) (hb : dst.At b) :
    Moves (Untouched (around a ∪ around b)) (rename src dst) := by
  have hout : ∀ (w : World) (s : Instant),
      Untouched (around a ∪ around b) w (w.next.rename a b s) := by
    intro w s q hq
    have hqa : q ∉ around a := fun h => hq (.inl h)
    have hqb : q ∉ around b := fun h => hq (.inr h)
    rw [World.rename, World.fs_commit, World.fs_setTree_none, World.fs_next]
    exact FileTree.lookup_move _ _ (fun h => hqa (.inl h)) (fun h => hqb (.inl h))
      (fun h => hqa (.inr h)) (fun h => hqb (.inr h))
  intro w
  rw [rename, exec_primitive, World.fs_next, ha.find, hb.find]
  by_cases hren : renamable w.fs a b = true
  · simp only [hren, if_true]
    cases (w.tape 0).fault with
    | some e =>
      cases e with
      | crash =>
        dsimp only
        split_ifs
        · exact hout w _
        · exact Untouched.of_same (same_next w)
      | _ => exact Untouched.of_same (same_next w)
    | none => exact hout w _
  · simp only [hren]
    exact Untouched.of_same (same_next w)

namespace LocalDestination

variable {d : LocalDestination} {P S : Loc} {src : Path} {x y : Name} {t t' : Fs} {w w' : World}

/-- What a store of `x` works on. -/
def storeSpots (P : Loc) (x : Name) : Set Loc :=
  {q | q <+: P ∨ P ++ [partialName x] <+: q ∨ P ++ [x] <+: q}

theorem around_storeSpots (hy : y = x ∨ y = partialName x) :
    around (P ++ [y]) ⊆ storeSpots P x := by
  rintro q (hq | rfl)
  · rcases hy with rfl | rfl
    · exact .inr (.inr hq)
    · exact .inr (.inl hq)
  · exact .inl (by simp)

theorem store_untouched (hp : d.path.At P) (src : Path) (x : Name) :
    Moves (Untouched (storeSpots P x)) (d.store src x.val) := by
  have hb := partial_dir_at hp x
  have hstale : Moves (Untouched (storeSpots P x)) (d.clear_stale x.val) :=
    Moves.bind (ask_untouched _ _) (fun _ => Moves.ite ((rmtree_untouched hb _).mono
      (fun _ _ h => h.mono (around_storeSpots (.inr rfl)))) (Moves.pure _))
  have hcopy : Moves (Untouched (storeSpots P x))
      (copytree src (d.partial_dir x.val) (· = META_FILENAME)) := by
    refine (copytree_untouched src hb _).mono (fun _ _ h => h.mono ?_)
    rintro q (hq | hq)
    · exact .inr (.inl hq)
    · rcases List.prefix_concat_iff.mp hq with rfl | hq
      · exact .inr (.inl (List.prefix_refl _))
      · exact .inl hq
  have hmeta : Moves (Untouched (storeSpots P x)) (d.copy_meta src x.val) := by
    refine Moves.bind (ask_untouched _ _) (fun _ => Moves.ite ((copy2_untouched _
      (hb.child META_FILENAME)).mono (fun _ _ h => h.mono ?_)) (Moves.pure _))
    rintro q (hq | rfl)
    · exact .inr (.inl ((List.prefix_append _ _).trans hq))
    · exact .inr (.inl (by simp))
  refine Moves.bind (ask_untouched _ _) (fun _ => Moves.ite (Moves.pure _) (guarded_moves _ ?_))
  refine Moves.bind ((mkdir_untouched hp).mono (fun _ _ h => h.mono (fun q hq => .inl hq)))
    (fun _ => Moves.bind hstale (fun _ => Moves.bind hcopy (fun _ =>
      Moves.bind hmeta (fun _ => ?_))))
  exact (rename_untouched hb (hp.join x)).mono (fun _ _ h => h.mono
    (Set.union_subset (around_storeSpots (.inr rfl)) (around_storeSpots (.inl rfl))))

theorem other_notMem_storeSpots (hx : y ≠ x) (hp : y ≠ partialName x) (r : Loc) :
    P ++ [y] ++ r ∉ storeSpots P x := by
  rintro (hq | hq | hq)
  · have := hq.length_le
    simp only [List.length_append, List.length_singleton] at this
    omega
  · exact hp (prefix_entry_iff.mp hq).symm
  · exact hx (prefix_entry_iff.mp hq).symm

/-- An entry with another id is as it was. -/
theorem Untouched.other (h : Untouched (storeSpots P x) w w') (hx : y ≠ x)
    (hp : y ≠ partialName x) :
    (y ∈ dirsIn w'.fs P ↔ y ∈ dirsIn w.fs P) ∧ recordOf w'.fs P y = recordOf w.fs P y := by
  have hentry := h _ (other_notMem_storeSpots (P := P) hx hp [])
  have hmeta := h _ (other_notMem_storeSpots (P := P) hx hp [META_FILENAME])
  rw [List.append_nil] at hentry
  have hkind := FileTree.kind_eq_of_lookup_eq hentry
  have hfile := FileTree.isFile_congr (FileTree.kind_eq_of_lookup_eq hmeta)
  refine ⟨by rw [mem_dirsIn, mem_dirsIn, hkind], ?_⟩
  rw [recordOf, recordOf, mtimeAt, mtimeAt, hentry, hfile]

theorem listedId_eq (hplain : stripSuffix PARTIAL_SUFFIX x.val = none) :
    listedId y = x.val ↔ y = x ∨ y = partialName x := by
  constructor
  · intro h
    rcases listedId_cases y with hy | hy
    · exact .inl (Subtype.ext (hy.trans h))
    · exact .inr (Subtype.ext (hy.trans (by rw [h]; rfl)))
  · rintro (rfl | rfl)
    · rw [listedId, hplain]
      rfl
    · exact listedId_partialName x

/-- The entries of the listing with the id, and those without it. -/
theorem records_filter (t : Fs) (P : Loc) (p : String → Bool) :
    (records t P).filter (fun b => p b.backup_id) =
      ((dirsIn t P).filter (fun y => p (listedId y))).map (recordOf t P) := by
  rw [records, List.filter_map]
  congr 1
  refine List.filter_congr (fun y _ => ?_)
  rw [Function.comp_apply, recordOf_id]

theorem dirsIn_nodup (t : Fs) (P : Loc) : (dirsIn t P).Nodup :=
  (FileTree.children_nodup t P).filter _

theorem Untouched.others (h : Untouched (storeSpots P x) w w')
    (hplain : stripSuffix PARTIAL_SUFFIX x.val = none) :
    ((records w'.fs P).filter (fun b => b.backup_id ≠ x.val)).Perm
      ((records w.fs P).filter (fun b => b.backup_id ≠ x.val)) := by
  have hother : ∀ y, listedId y ≠ x.val → y ≠ x ∧ y ≠ partialName x := fun y hy =>
    not_or.mp (fun h => hy ((listedId_eq hplain).mpr h))
  rw [records_filter _ _ (fun i => decide (i ≠ x.val)),
    records_filter _ _ (fun i => decide (i ≠ x.val))]
  have hdirs : ((dirsIn w'.fs P).filter (fun y => decide (listedId y ≠ x.val))).Perm
      ((dirsIn w.fs P).filter (fun y => decide (listedId y ≠ x.val))) := by
    rw [List.perm_ext_iff_of_nodup ((dirsIn_nodup _ _).filter _) ((dirsIn_nodup _ _).filter _)]
    intro y
    rw [List.mem_filter, List.mem_filter]
    refine and_congr_left (fun hy => ?_)
    obtain ⟨hx, hp⟩ := hother y (by simpa using hy)
    exact (Untouched.other h hx hp).1
  refine (hdirs.map _).trans (List.Perm.of_eq (List.map_congr_left (fun y hy => ?_)))
  obtain ⟨hx, hp⟩ := hother y (by simpa using (List.mem_filter.mp hy).2)
  exact (Untouched.other h hx hp).2

/-- Beside no building directory the generation is the one entry of its id. -/
theorem records_once (hplain : stripSuffix PARTIAL_SUFFIX x.val = none)
    (hdir : t.kind (P ++ [x]) = some .dir) (hpart : t.isDir (P ++ [partialName x]) = false) :
    (records t P).filter (fun b => b.backup_id = x.val) = [recordOf t P x] := by
  rw [records_filter _ _ (fun i => decide (i = x.val))]
  have hdirs : (dirsIn t P).filter (fun y => decide (listedId y = x.val)) = [x] := by
    refine List.perm_singleton.mp ?_
    rw [List.perm_ext_iff_of_nodup ((dirsIn_nodup _ _).filter _) (List.nodup_singleton x)]
    intro y
    rw [List.mem_filter, mem_dirsIn, decide_eq_true_eq, listedId_eq hplain, List.mem_singleton]
    constructor
    · rintro ⟨hy, rfl | rfl⟩
      · rfl
      · rw [(FileTree.isDir_iff _ _).mpr hy] at hpart
        cases hpart
    · rintro rfl
      exact ⟨hdir, .inl rfl⟩
  rw [hdirs, List.map_singleton]

/-- Beside a building directory it is not. -/
theorem records_twice (hplain : stripSuffix PARTIAL_SUFFIX x.val = none)
    (hdir : t.kind (P ++ [x]) = some .dir) (hpart : t.isDir (P ++ [partialName x]) = true)
    (b : StoredBackup) : (records t P).filter (fun b => b.backup_id = x.val) ≠ [b] := by
  rw [records_filter _ _ (fun i => decide (i = x.val))]
  intro h
  obtain ⟨y, hy, -⟩ := List.map_eq_singleton_iff.mp h
  have hmem : ∀ z, t.kind (P ++ [z]) = some .dir → z = x ∨ z = partialName x → z = y := by
    intro z hz hname
    rw [← List.mem_singleton, ← hy, List.mem_filter, mem_dirsIn, decide_eq_true_eq,
      listedId_eq hplain]
    exact ⟨hz, hname⟩
  have hxy := hmem x hdir (.inl rfl)
  have hpy := hmem (partialName x) ((FileTree.isDir_iff _ _).mp hpart) (.inr rfl)
  exact partialName_ne x (hpy.trans hxy.symm)

/-- A transfer that returned took its manifest from outside of what it works on. -/
theorem transfer_source (hp : d.path.At P) (hS : src.At S) {data : String}
    (hmeta : w.fs.kind (S ++ [META_FILENAME]) = some (.file data))
    (hr : w.fs.Rooted (P ++ [partialName x])) (h : exec (d.transfer src x.val) w = (.ok (), w')) :
    (none, S ++ [META_FILENAME]) ∉ building P x := by
  obtain ⟨_, w₁, h₁, h⟩ := exec_bind_eq_ok h
  obtain ⟨_, w₂, h₂, h⟩ := exec_bind_eq_ok h
  obtain ⟨_, w₃, h₃, -⟩ := exec_bind_eq_ok h
  rintro (⟨-, hq⟩ | ⟨-, hq⟩)
  · have hfree := (mkdir_ok hp h₁).1 _ hq
    rw [(FileTree.isFile_iff _ _).mpr ⟨data, hmeta⟩] at hfree
    cases hfree
  · have half₁ : Halfway P x w.fs w₁.fs := (mkdir_halfway hp).of_exec h₁
    have hempty := (clear_stale_ok hp (half₁.rooted hr) h₂).1
    rcases List.prefix_concat_iff.mp hq with heq | hq
    · exact partialName_ne_meta x (by simpa using (List.append_inj' heq rfl).2)
    · obtain ⟨r, rfl⟩ := hq
      have hdir := (copytree_ok hS (partial_dir_at hp x) h₃).1
      rw [hempty] at hdir
      cases hdir

/-- A store that returned has the generation in its place, complete; and no building directory
is left, unless it stood beside the generation before. -/
theorem store_ok (hp : d.path.At P) (hS : src.At S) {data : String}
    (hmeta : w.fs.kind (S ++ [META_FILENAME]) = some (.file data)) (hhoused : w.fs.Housed)
    (h : exec (d.store src x.val) w = (.ok (), w')) :
    w'.fs.kind P = some .dir ∧ w'.fs.kind (P ++ [x]) = some .dir ∧
      w'.fs.isFile (P ++ [x] ++ [META_FILENAME]) = true ∧
      (w'.fs.isDir (P ++ [partialName x]) = true ↔
        w.fs.isFile (P ++ [x] ++ [META_FILENAME]) = true ∧
          w.fs.isDir (P ++ [partialName x]) = true) := by
  rcases store_cases hp h with ⟨hsame, hcomplete⟩ | ⟨hmissing, ⟨-, hne⟩ | ⟨u, hu, hcopy⟩⟩
  · have hfile := hcomplete rfl
    have hx := hhoused _ _ (FileTree.kind_ne_none_of_isFile hfile)
    rw [hsame.fs]
    exact ⟨hhoused _ _ (by rw [hx]; simp), hx, hfile, (and_iff_right hfile).symm⟩
  · exact absurd rfl hne
  · obtain ⟨hdir, -, hP, -⟩ := renamable_iff.mp hu.renamable
    rw [List.dropLast_concat] at hP
    obtain ⟨s, hs⟩ := hu.tree
    have hfs : w'.fs = u.fs.move (P ++ [partialName x]) (P ++ [x]) s := by
      rw [World.fs, hs]
      rfl
    have hnotP : ∀ y : Name, ¬ P ++ [y] <+: P := by
      intro y hy
      have := hy.length_le
      simp only [List.length_append, List.length_singleton] at this
      omega
    have hxp : ¬ P ++ [x] <+: P ++ [partialName x] := fun hq =>
      (partialName_ne x).symm (by simpa using hq.eq_of_length (by simp))
    have htransfer : exec (d.transfer src x.val) w.next = (.ok (), w') := by
      rcases store_stages hp src x w with ⟨-, -, hdone, -⟩ | ⟨-, -, heq⟩
      · rw [hdone (by rw [h])] at hmissing
        cases hmissing
      · exact guarded_ok.mp (heq.symm.trans h)
    have hsource := transfer_source (w := w.next) hp hS hmeta (hhoused.rooted _) htransfer
    have htop := FileTree.kind_move_append u.fs (P ++ [partialName x]) (P ++ [x]) [] s
    rw [List.append_nil, List.append_nil] at htop
    rw [hfs]
    refine ⟨?_, htop.trans hdir, ?_, ?_⟩
    · rw [FileTree.kind_move_of_outside _ _ (hnotP _) (hnotP _), hP]
    · rw [FileTree.isFile_iff]
      exact ⟨data, (FileTree.kind_move_append _ _ _ _ _).trans (hcopy S data hS hsource hmeta)⟩
    · have hgone := FileTree.kind_move_source u.fs s hxp (List.prefix_refl _)
      refine iff_of_false ?_ (fun hboth => ?_)
      · rw [FileTree.isDir, hgone]
        simp
      · rw [hmissing] at hboth
        cases hboth.1

end LocalDestination

/-- `q` is an entry of the directory `p`. -/
def Path.IsChild (p q : Path) : Prop := ∃ s, q.text = ⟨p.text.root, p.text.parts ++ [s]⟩

/-- An id without a slash is one part of a path. -/
theorem parse_backup_id {pre id : String} {now : Datetime} (hslash : '/' ∉ pre.toList)
    (h : generate_backup_id pre now = .ok id) : PurePath.parse id = ⟨"", [id]⟩ := by
  have hid : '/' ∉ id.toList := fun hc => hslash ((generate_backup_id_slash h).mp hc)
  have hlast := generate_backup_id_getLast? h
  have hne : id ≠ "" ∧ id ≠ "." := by
    constructor
    · rintro rfl
      cases hlast
    · rintro rfl
      exact absurd hlast (by decide)
  rw [PurePath.parse, rootOf_eq_empty hid, PurePath.partsOf, splitOn_of_notMem hid]
  simp [hne]

theorem target_dir_isChild (site : Site) {config : Config} {now : Datetime} {backup_id : String}
    (hslash : '/' ∉ config.backup.name_prefix.toList)
    (h : generate_backup_id config.backup.name_prefix now = .ok backup_id) :
    (work_dir site config).IsChild (target_dir site config backup_id) := by
  refine ⟨backup_id, ?_⟩
  simp [target_dir, Path.join, PurePath.join, parse_backup_id hslash h]

namespace LocalDestination

variable {d : LocalDestination} {w w' : World} {before after : List StoredBackup}

/-- What a listing says while the trees are as in `w`; nothing, where the path does not exist. -/
inductive Lists (d : LocalDestination) (w : World) : List StoredBackup → Prop where
  | returned {v v' : World} {stored : List StoredBackup} (htree : v.tree = w.tree)
      (h : exec d.list_backups v = (.ok stored, v')) : Lists d w stored
  | missing (h : d.path.isDirIn w.fs = false) : Lists d w []

/-- The listing got one entry with the id, a complete one, and its other entries are as before. -/
structure Added (backup_id : String) (before after : List StoredBackup) : Prop where
  once : ∃ b, after.filter (fun b => b.backup_id = backup_id) = [b] ∧ b.complete = true
  others : (after.filter (fun b => b.backup_id ≠ backup_id)).Perm
    (before.filter (fun b => b.backup_id ≠ backup_id))

/-- No building directory stands beside the complete generation. -/
def Settles (d : LocalDestination) (backup_id : String) (t : Fs) : Prop :=
  ((d.final_dir backup_id).child META_FILENAME).isFileIn t = true →
    (d.partial_dir backup_id).isDirIn t = false

instance (d : LocalDestination) (backup_id : String) (t : Fs) : Decidable (d.Settles backup_id t) :=
  inferInstanceAs (Decidable (_ → _))

theorem Lists.records_or (h : Lists d w after) {P : Loc} (hp : d.path.At P) :
    after = records w.fs P ∨ w.fs.isDir P = false ∧ after = [] := by
  cases h with
  | returned htree h =>
    obtain ⟨-, -, -, hstored⟩ := list_backups_ok hp h
    left
    rw [hstored, World.fs, htree]
    rfl
  | missing h =>
    right
    simpa [Path.isDirIn, hp.find] using h

theorem Lists.eq (h : Lists d w before) {P : Loc} (hp : d.path.At P) (hhoused : w.fs.Housed) :
    before = records w.fs P := by
  rcases h.records_or hp with heq | ⟨hdir, rfl⟩
  · exact heq
  · have hnone : dirsIn w.fs P = [] := by
      apply List.eq_nil_iff_forall_not_mem.mpr
      intro x hx
      have hP := hhoused _ _ (by rw [mem_dirsIn.mp hx]; simp : w.fs.kind (P ++ [x]) ≠ none)
      rw [(FileTree.isDir_iff _ _).mpr hP] at hdir
      cases hdir
    rw [records, hnone]
    rfl

/-- The path of a listing with an entry has no NUL. -/
theorem Lists.at {cwd : Loc} {dest : DestinationConfig} (h : Lists (from_config cwd dest) w after)
    (hne : after ≠ []) : (from_config cwd dest).path.At (localRoot cwd dest) := by
  apply DestinationConfig.at_of_nul
  by_contra hnul
  cases h with
  | returned htree h =>
    obtain ⟨there, u, hu, h⟩ := exec_bind_eq_ok h
    have hfalse := DestinationConfig.find_of_nul (by simpa using hnul) u.fs
    obtain ⟨hthere, rfl⟩ := exec_ask_ok hu
    rw [hthere, hfalse] at h
    cases h
  | missing h => exact hne rfl

end LocalDestination

/-- A store that returned had a path without a NUL. -/
theorem LocalDestination.nul_of_store_ok {d : LocalDestination} {src : Path} {x : Name}
    {w w' : World} (h : exec (d.store src x.val) w = (.ok (), w')) : d.path.nul = false := by
  by_contra hnul
  rw [Bool.not_eq_false] at hnul
  obtain ⟨complete, u, hu, h⟩ := exec_bind_eq_ok h
  obtain ⟨hcomplete, rfl⟩ := exec_ask_ok hu
  have hfinal : ((d.final_dir x.val).child META_FILENAME).nul = true := by
    rw [LocalDestination.final_dir, Path.join_name]
    exact hnul
  rw [hcomplete, Path.isFileIn, Path.find_nul hfinal] at h
  obtain ⟨_, w₁, h₁, -⟩ := exec_bind_eq_ok (guarded_ok.mp h)
  rw [mkdir, exec_primitive, if_pos hnul] at h₁
  cases h₁

/-- Under a prefix without a slash the run's directory and the id are one entry each. -/
theorem target_dir_source {site : Site} {config : Config} {now : Datetime} {backup_id : String}
    (hslash : '/' ∉ config.backup.name_prefix.toList)
    (hid : generate_backup_id config.backup.name_prefix now = .ok backup_id) {t : Fs}
    (hmanifest : ((target_dir site config backup_id).child META_FILENAME).isFileIn t = true) :
    ∃ x : Name, x.val = backup_id ∧ ∃ S data, (target_dir site config x.val).At S ∧
      t.kind (S ++ [META_FILENAME]) = some (.file data) := by
  have hnul : (target_dir site config backup_id).nul = false := by
    by_contra h
    have hchild : ((target_dir site config backup_id).child META_FILENAME).nul = true := by
      simpa [Path.child] using h
    rw [Path.isFileIn, Path.find_nul hchild] at hmanifest
    cases hmanifest
  rcases generate_backup_id_legal_or hslash hid with hlegal | hnulid
  · have hwork : (work_dir site config).nul = false := by
      rw [target_dir, show backup_id = (⟨backup_id, hlegal⟩ : Name).val from rfl,
        Path.join_name] at hnul
      exact hnul
    have hat : (work_dir site config).At (work_dir site config).loc :=
      Path.configured_at (by simpa [work_dir, Path.configured] using hwork)
    have hS := hat.join ⟨backup_id, hlegal⟩
    have hfile :
        t.isFile ((work_dir site config).loc ++ [⟨backup_id, hlegal⟩] ++ [META_FILENAME]) =
          true := by
      rw [← hmanifest, Path.isFileIn, target_dir, (hS.child META_FILENAME).find]
      rfl
    obtain ⟨data, hdata⟩ := (FileTree.isFile_iff _ _).mp hfile
    exact ⟨⟨backup_id, hlegal⟩, rfl, _, data, hS, hdata⟩
  · rw [target_dir, Path.join_nul _ hnulid] at hnul
    cases hnul

/-- The store of the run's directory, which holds the manifest, returned. -/
structure StoreReturned (site : Site) (config : Config) (dest : DestinationConfig)
    (backup_id : String) (w w' : World) : Prop where
  manifest : ((target_dir site config backup_id).child META_FILENAME).isFileIn w.fs = true
  housed : w.fs.Housed
  returned : exec ((LocalDestination.from_config site.cwd dest).store
    (target_dir site config backup_id) backup_id) w = (.ok (), w')

section

variable {site : Site} {config : Config} {dest : DestinationConfig} {now : Datetime}
  {backup_id : String} {w w' : World}

/-- What a store did under a prefix without a slash. -/
theorem StoreReturned.effect (hs : StoreReturned site config dest backup_id w w')
    (hid : generate_backup_id config.backup.name_prefix now = .ok backup_id)
    (hslash : '/' ∉ config.backup.name_prefix.toList) : ∃ x : Name, x.val = backup_id ∧
      (LocalDestination.from_config site.cwd dest).path.At (localRoot site.cwd dest) ∧
      w'.fs.kind (localRoot site.cwd dest) = some .dir ∧
      w'.fs.kind (localRoot site.cwd dest ++ [x]) = some .dir ∧
      w'.fs.isFile (localRoot site.cwd dest ++ [x] ++ [META_FILENAME]) = true ∧
      (w'.fs.isDir (localRoot site.cwd dest ++ [partialName x]) = false ↔
        (LocalDestination.from_config site.cwd dest).Settles backup_id w.fs) ∧
      Untouched (LocalDestination.storeSpots (localRoot site.cwd dest) x) w w' := by
  obtain ⟨x, rfl, S, data, hS, hdata⟩ := target_dir_source hslash hid hs.manifest
  have hp := DestinationConfig.at_of_nul (LocalDestination.nul_of_store_ok hs.returned)
  obtain ⟨hP, hx, hfile, hiff⟩ := LocalDestination.store_ok hp hS hdata hs.housed hs.returned
  refine ⟨x, rfl, hp, hP, hx, hfile, ?_,
    (LocalDestination.store_untouched hp _ x).of_exec hs.returned⟩
  rw [LocalDestination.Settles, Path.isFileIn, Path.isDirIn, ((hp.join x).child _).find,
    (LocalDestination.partial_dir_at hp x).find, Option.map_some, Option.map_some,
    Option.getD_some, Option.getD_some, ← Bool.not_eq_true, hiff, not_and, Bool.not_eq_true]

/-- Then the listing returns when no call fails and every time in it has a reading. -/
theorem StoreReturned.listing (hs : StoreReturned site config dest backup_id w w')
    (hid : generate_backup_id config.backup.name_prefix now = .ok backup_id)
    (hslash : '/' ∉ config.backup.name_prefix.toList) {v : World} (hcalm : Calm v)
    (htree : v.tree = w'.tree)
    (hdated : LocalDestination.Dated w'.fs (localRoot site.cwd dest)) :
    ∃ stored v', exec (LocalDestination.from_config site.cwd dest).list_backups v =
      (.ok stored, v') := by
  obtain ⟨x, -, hp, hP, -⟩ := hs.effect hid hslash
  have hres := ((LocalDestination.list_backups_reads hp).calm v hcalm).1
  have hfs : v.tree none = w'.fs := by rw [htree]; rfl
  rw [hfs, if_pos ((FileTree.isDir_iff _ _).mpr hP), if_pos hdated] at hres
  exact ⟨_, _, Prod.ext hres rfl⟩

/-- What is listed after a store, by the prefix and by what was there before. -/
theorem StoreReturned.added_iff (hs : StoreReturned site config dest backup_id w w')
    (hid : generate_backup_id config.backup.name_prefix now = .ok backup_id)
    {before after : List StoredBackup}
    (hbefore : (LocalDestination.from_config site.cwd dest).Lists w before)
    (hafter : (LocalDestination.from_config site.cwd dest).Lists w' after) :
    LocalDestination.Added backup_id before after ↔
      '/' ∉ config.backup.name_prefix.toList ∧
        (LocalDestination.from_config site.cwd dest).Settles backup_id w.fs := by
  have hplain : stripSuffix PARTIAL_SUFFIX backup_id = none :=
    stripSuffix_of_last_ne (generate_backup_id_getLast? hid) (d := 'l') (by decide) (by decide)
  constructor
  · rintro ⟨⟨b, hb, -⟩, -⟩
    obtain ⟨hmem, hbid⟩ := List.mem_filter.mp (hb ▸ List.mem_singleton_self b)
    have hpath := hafter.at (List.ne_nil_of_mem hmem)
    have hrecords : after = LocalDestination.records w'.fs (localRoot site.cwd dest) :=
      (hafter.records_or hpath).resolve_right (fun h => List.ne_nil_of_mem hmem h.2)
    have hslash : '/' ∉ config.backup.name_prefix.toList := by
      obtain ⟨y, -, hy⟩ := LocalDestination.mem_records.mp (hrecords ▸ hmem)
      rw [← generate_backup_id_slash hid, ← of_decide_eq_true hbid, ← hy,
        LocalDestination.recordOf_id]
      exact LocalDestination.listedId_slash y
    obtain ⟨x, rfl, -, -, hx, -, hiff, -⟩ := hs.effect hid hslash
    refine ⟨hslash, hiff.mp ?_⟩
    by_contra hpart
    rw [hrecords] at hb
    exact LocalDestination.records_twice hplain hx (by simpa using hpart) b hb
  · rintro ⟨hslash, hsettles⟩
    obtain ⟨x, rfl, hp, hP, hx, hfile, hiff, hrest⟩ := hs.effect hid hslash
    have hrecords : after = LocalDestination.records w'.fs (localRoot site.cwd dest) := by
      refine (hafter.records_or hp).resolve_right (fun h => ?_)
      rw [(FileTree.isDir_iff _ _).mpr hP] at h
      cases h.1
    rw [hrecords, hbefore.eq hp hs.housed]
    refine ⟨⟨_, LocalDestination.records_once hplain hx (hiff.mpr hsettles), ?_⟩,
      LocalDestination.Untouched.others hrest hplain⟩
    rw [LocalDestination.recordOf_plain hplain]
    exact hfile

end

/-- The run's directory is an entry of `work_dir` when the prefix has no slash. When a store of it
returned, that holds and the listing has got just the complete generation exactly if the prefix has
no slash and no building directory stood beside the complete generation. -/
theorem stored_generation_is_listed_iff (site : Site) {config : Config} {now : Datetime}
    {backup_id : String}
    (hid : generate_backup_id config.backup.name_prefix now = .ok backup_id) :
    ('/' ∉ config.backup.name_prefix.toList →
        (work_dir site config).IsChild (target_dir site config backup_id)) ∧
      ∀ dest w w', StoreReturned site config dest backup_id w w' →
        ('/' ∉ config.backup.name_prefix.toList → ∀ v, Calm v → v.tree = w'.tree →
          LocalDestination.Dated w'.fs (localRoot site.cwd dest) → ∃ stored v',
            exec (LocalDestination.from_config site.cwd dest).list_backups v = (.ok stored, v')) ∧
        ∀ before after, (LocalDestination.from_config site.cwd dest).Lists w before →
          (LocalDestination.from_config site.cwd dest).Lists w' after →
          ((work_dir site config).IsChild (target_dir site config backup_id) ∧
              LocalDestination.Added backup_id before after ↔
            '/' ∉ config.backup.name_prefix.toList ∧
              (LocalDestination.from_config site.cwd dest).Settles backup_id w.fs) := by
  refine ⟨fun hslash => target_dir_isChild site hslash hid, fun dest w w' hs =>
    ⟨fun hslash v hcalm htree hdated => hs.listing hid hslash hcalm htree hdated, ?_⟩⟩
  intro before after hbefore hafter
  rw [← hs.added_iff hid hbefore hafter]
  refine and_iff_right_of_imp (fun hadded => ?_)
  exact target_dir_isChild site ((hs.added_iff hid hbefore hafter).mp hadded).1 hid

/-- The run has come to the stores: its directory is made and holds the manifest. -/
def madeWorld (target : Loc) : World :=
  smallWorld ((smallTree.mkdirs target.inits 0).create (target ++ [META_FILENAME]) (.file "") 0)

/-- After the store of `backup_id` under the prefix. -/
def storedWorld (pre backup_id : String) (target : Loc) : World :=
  (exec ((LocalDestination.from_config (site [] smallNodes).cwd (smallDestination "/b" 1)).store
    (target_dir (site [] smallNodes) (smallConfig "/w" pre "/b" 1) backup_id) backup_id)
    (madeWorld target)).2

def fullTarget : Loc := [entry "w", entry "full-20231114T221320Z"]

def nestedTarget : Loc := [entry "w", entry "db", entry "full-20231114T221320Z"]

/-- At the stores of a run whose destination has an older generation and a building directory. -/
def peerWorld : World :=
  smallWorld ((((smallTree.addGeneration [entry "b", entry "full-20231113T221320Z"]).create
    [entry "b", entry "full-20231112T221320Z.partial"] .dir 0).mkdirs fullTarget.inits 0).create
      (fullTarget ++ [META_FILENAME]) (.file "") 0)

def peerStored : World :=
  (exec ((LocalDestination.from_config (site [] smallNodes).cwd (smallDestination "/b" 1)).store
    (target_dir (site [] smallNodes) (smallConfig "/w" "full" "/b" 1) "full-20231114T221320Z")
    "full-20231114T221320Z") peerWorld).2

/-- The listing gets the one entry beside the two it had. -/
theorem stored_generation_is_listed_full :
    (work_dir (site [] smallNodes) (smallConfig "/w" "full" "/b" 1)).IsChild
        (target_dir (site [] smallNodes) (smallConfig "/w" "full" "/b" 1)
          "full-20231114T221320Z") ∧
      LocalDestination.Added "full-20231114T221320Z"
        [⟨"full-20231112T221320Z", false, Datetime.utc 0⟩,
          ⟨"full-20231113T221320Z", true, Datetime.utc 0⟩]
        [⟨"full-20231112T221320Z", false, Datetime.utc 0⟩,
          ⟨"full-20231113T221320Z", true, Datetime.utc 0⟩,
          ⟨"full-20231114T221320Z", true, Datetime.utc 1700000000000000⟩] := by
  have hid : generate_backup_id "full" (Datetime.utc 1700000000000000) =
      .ok "full-20231114T221320Z" := rfl
  have hs : StoreReturned (site [] smallNodes) (smallConfig "/w" "full" "/b" 1)
      (smallDestination "/b" 1) "full-20231114T221320Z" peerWorld peerStored :=
    ⟨by decide +kernel, FileTree.housed_of_locs (by decide +kernel),
      exec_of_ok (by decide +kernel)⟩
  have hall := (@stored_generation_is_listed_iff (site [] smallNodes)
    (smallConfig "/w" "full" "/b" 1) _ _ hid).2 _ _ _ hs
  refine (hall.2 _ _ ?_ ?_).mpr ⟨by decide, by decide +kernel⟩
  · exact .returned (v := peerWorld) rfl (exec_of_ok (by decide +kernel))
  · exact .returned (v := peerStored) rfl (exec_of_ok (by decide +kernel))

/-- Under the accepted prefix `db/full` the listing shows an incomplete `db` alone, which a purge a
day later deletes. -/
theorem nested_generation_is_unlisted :
    parse_config (smallTable "/w" "db/full" "/b" 1) = .ok (smallConfig "/w" "db/full" "/b" 1) ∧
      generate_backup_id "db/full" (Datetime.utc 1700000000000000) =
        .ok "db/full-20231114T221320Z" ∧
      StoreReturned (site [] smallNodes) (smallConfig "/w" "db/full" "/b" 1)
        (smallDestination "/b" 1) "db/full-20231114T221320Z" (madeWorld nestedTarget)
        (storedWorld "db/full" "db/full-20231114T221320Z" nestedTarget) ∧
      (exec (LocalDestination.from_config [] (smallDestination "/b" 1)).list_backups
          (storedWorld "db/full" "db/full-20231114T221320Z" nestedTarget)).1 =
        .ok [⟨"db", false, Datetime.utc 1700000000000000⟩] ∧
      select_purge [⟨"db", false, Datetime.utc 1700000000000000⟩] 1 24
          (Datetime.utc (1700000000000000 + 24 * 3600 * 1000000)) none = .ok ⟨[], ["db"]⟩ ∧
      ¬ (work_dir (site [] smallNodes) (smallConfig "/w" "db/full" "/b" 1)).IsChild
        (target_dir (site [] smallNodes) (smallConfig "/w" "db/full" "/b" 1)
          "db/full-20231114T221320Z") ∧
      ¬ LocalDestination.Added "db/full-20231114T221320Z" []
        [⟨"db", false, Datetime.utc 1700000000000000⟩] := by
  refine ⟨rfl, rfl, ⟨by decide +kernel, FileTree.housed_of_locs (by decide +kernel),
    exec_of_ok (by decide +kernel)⟩, by decide +kernel, by decide +kernel, ?_, ?_⟩
  · rintro ⟨s, hs⟩
    have hparts : ["w", "db", "full-20231114T221320Z"] = ["w"] ++ [s] :=
      congrArg PurePath.parts hs
    simp at hparts
  · rintro ⟨⟨b, hb, -⟩, -⟩
    have hnone : ([] : List StoredBackup) = [b] := hb
    cases hnone

end MbKeeper
