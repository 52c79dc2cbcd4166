import MbKeeper.Refinement
import MbKeeper.Copies
import MbKeeper.SshRetention
import MbKeeper.GraceHistory

/-!
# The two backends as archives

`contents` is what a destination holds as a map from ids to generations. While
every operation returns without an error, whatever else goes on elsewhere, both
backends refine the archive of `Refinement`: a store puts the copy of its source
under the id unless there is a generation of that id, and a delete drops the id.
What they list is the keys of the map. So the same operations leave the same
generations at a local and at a remote destination.
-/
namespace MbKeeper

open Refinement

/-- What a generation holds, by the places below its directory. -/
abbrev Content := Loc → Option (Kind String)

section

variable (h : Option String) (P : Loc) (w : World)

/-- The generations in the directory `P` of the host `h`. -/
def contents (x : Name) : Option Content :=
  if (w.tree h).isDir (P ++ [x]) then some (fun r => (w.tree h).kind (P ++ [x] ++ r)) else none

/-- What lies in the directory are complete generations. -/
structure Archived : Prop where
  names : ∀ z r, (w.tree h).kind (P ++ [z] ++ r) ≠ none →
    SSHDestination.Listable z ∧ stripSuffix PARTIAL_SUFFIX z.val = none
  dir : ∀ z r, (w.tree h).kind (P ++ [z] ++ r) ≠ none → (w.tree h).isDir (P ++ [z]) = true
  complete : ∀ z, (w.tree h).isDir (P ++ [z]) = true →
    (w.tree h).isFile (P ++ [z] ++ [META_FILENAME]) = true

end

variable {h : Option String} {P : Loc} {w w' : World} {x : Name}

theorem Archived.of_empty (hempty : ∀ q, P <+: q → q ≠ P → (w.tree h).kind q = none) :
    Archived h P w ∧ contents h P w = fun _ => none := by
  have hnone : ∀ z r, (w.tree h).kind (P ++ [z] ++ r) = none := fun z r =>
    hempty _ ⟨[z] ++ r, by simp⟩ (by simp)
  have hdir : ∀ z, (w.tree h).isDir (P ++ [z]) = false := by
    intro z
    have hroot := hnone z []
    rw [List.append_nil] at hroot
    rw [FileTree.isDir, hroot]
  refine ⟨⟨fun z r hz => absurd (hnone z r) hz, fun z r hz => absurd (hnone z r) hz,
    fun z hz => ?_⟩, ?_⟩
  · rw [hdir] at hz
    cases hz
  · funext z
    rw [contents, if_neg (by simp [hdir z])]

/-- Both depend on what lies in the directory only. -/
theorem Archived.congr (hw : Archived h P w)
    (hkind : ∀ z r, (w'.tree h).kind (P ++ [z] ++ r) = (w.tree h).kind (P ++ [z] ++ r)) :
    Archived h P w' ∧ contents h P w' = contents h P w := by
  have hroot : ∀ z, (w'.tree h).isDir (P ++ [z]) = (w.tree h).isDir (P ++ [z]) := by
    intro z
    have hz := hkind z []
    rw [List.append_nil] at hz
    exact FileTree.isDir_congr hz
  refine ⟨⟨fun z r hz => hw.names z r (by rwa [← hkind]), fun z r hz => ?_, fun z hz => ?_⟩, ?_⟩
  · rw [hroot]
    exact hw.dir z r (by rwa [← hkind])
  · rw [FileTree.isFile_congr (hkind z _)]
    exact hw.complete z (by rwa [← hroot])
  · funext z
    simp only [contents, hroot, hkind]

/-- A generation put where there was none. -/
theorem Archived.put (hw : Archived h P w) (hx : SSHDestination.Listable x)
    (hplain : stripSuffix PARTIAL_SUFFIX x.val = none) {c : Content} (hdir : c [] = some .dir)
    (hmeta : ∃ data, c [META_FILENAME] = some (.file data))
    (hown : ∀ r, (w'.tree h).kind (P ++ [x] ++ r) = c r)
    (hothers : ∀ z, z ≠ x → ∀ r,
      (w'.tree h).kind (P ++ [z] ++ r) = (w.tree h).kind (P ++ [z] ++ r)) :
    Archived h P w' ∧ contents h P w' = Function.update (contents h P w) x (some c) := by
  have hroot : (w'.tree h).isDir (P ++ [x]) = true := by
    have hnil := hown []
    rw [List.append_nil, hdir] at hnil
    exact (FileTree.isDir_iff _ _).mpr hnil
  have hsame : ∀ z, z ≠ x → (w'.tree h).isDir (P ++ [z]) = (w.tree h).isDir (P ++ [z]) := by
    intro z hz
    have hnil := hothers z hz []
    rw [List.append_nil] at hnil
    exact FileTree.isDir_congr hnil
  refine ⟨⟨fun z r hz => ?_, fun z r hz => ?_, fun z hz => ?_⟩, ?_⟩
  · by_cases hzx : z = x
    · exact hzx ▸ ⟨hx, hplain⟩
    · exact hw.names z r (by rwa [← hothers z hzx])
  · by_cases hzx : z = x
    · rwa [hzx]
    · rw [hsame z hzx]
      exact hw.dir z r (by rwa [← hothers z hzx])
  · by_cases hzx : z = x
    · obtain ⟨data, hdata⟩ := hmeta
      rw [hzx, FileTree.isFile_iff]
      exact ⟨data, (hown _).trans hdata⟩
    · rw [FileTree.isFile_congr (hothers z hzx _)]
      exact hw.complete z (by rwa [← hsame z hzx])
  · funext z
    by_cases hzx : z = x
    · subst hzx
      rw [Function.update_self, contents, if_pos hroot]
      exact congrArg some (funext hown)
    · rw [Function.update_of_ne hzx]
      simp only [contents, hsame z hzx, hothers z hzx]

/-- A generation dropped with all it held. -/
theorem Archived.drop (hw : Archived h P w) (hgone : ∀ r, (w'.tree h).kind (P ++ [x] ++ r) = none)
    (hothers : ∀ z, z ≠ x → ∀ r,
      (w'.tree h).kind (P ++ [z] ++ r) = (w.tree h).kind (P ++ [z] ++ r)) :
    Archived h P w' ∧ contents h P w' = Function.update (contents h P w) x none := by
  have hroot : (w'.tree h).isDir (P ++ [x]) = false := by
    have hnil := hgone []
    rw [List.append_nil] at hnil
    rw [FileTree.isDir, hnil]
  have hsame : ∀ z, z ≠ x → (w'.tree h).isDir (P ++ [z]) = (w.tree h).isDir (P ++ [z]) := by
    intro z hz
    have hnil := hothers z hz []
    rw [List.append_nil] at hnil
    exact FileTree.isDir_congr hnil
  have hne : ∀ z r, (w'.tree h).kind (P ++ [z] ++ r) ≠ none → z ≠ x := by
    rintro z r hz rfl
    exact hz (hgone r)
  refine ⟨⟨fun z r hz => ?_, fun z r hz => ?_, fun z hz => ?_⟩, ?_⟩
  · exact hw.names z r (by rwa [← hothers z (hne z r hz)])
  · rw [hsame z (hne z r hz)]
    exact hw.dir z r (by rwa [← hothers z (hne z r hz)])
  · have hzx : z ≠ x := by
      rintro rfl
      rw [hroot] at hz
      cases hz
    rw [FileTree.isFile_congr (hothers z hzx _)]
    exact hw.complete z (by rwa [← hsame z hzx])
  · funext z
    by_cases hzx : z = x
    · subst hzx
      rw [Function.update_self, contents, if_neg (by simp [hroot])]
    · rw [Function.update_of_ne hzx]
      simp only [contents, hsame z hzx, hothers z hzx]

/-- A backend that keeps its generations in the directory `P` of the host `h`. -/
inductive Backend (P : Loc) : Destination → Option String → Prop where
  | disk {d : LocalDestination} (hp : d.path.At P) : Backend P d.toDestination none
  | ssh {d : SSHDestination} (hp : d.path.path.At P) (hpath : Literal d.remote_path) :
      Backend P d.toDestination (some d.host)

/-- An id that names a generation at both backends. -/
structure ArchiveId (x : Name) : Prop where
  listable : SSHDestination.Listable x
  plain : stripSuffix PARTIAL_SUFFIX x.val = none

/-- Nothing has the name of the id or of its building directory. -/
theorem Archived.free (hw : Archived h P w) (hx : contents h P w x = none) (r : Loc) :
    (w.tree h).kind (P ++ [x] ++ r) = none ∧
      (w.tree h).kind (P ++ [partialName x] ++ r) = none := by
  constructor
  · by_contra hthere
    rw [contents, if_pos (hw.dir x r hthere)] at hx
    cases hx
  · by_contra hthere
    have hplain := (hw.names _ r hthere).2
    rw [stripSuffix_partialName] at hplain
    cases hplain

section Store

variable {S : Loc} {src : Path}

theorem copyOf_root (t : Fs) (S : Loc) : copyOf t S [] = t.kind S := by
  rw [copyOf, if_pos (.inr (by simp)), List.append_nil]

theorem copyOf_meta (t : Fs) (S : Loc) :
    copyOf t S [META_FILENAME] = t.kind (S ++ [META_FILENAME]) := by
  rw [copyOf, if_pos (.inl rfl)]

/-- A local store that returned, under an id that is free. -/
theorem LocalDestination.store_puts {d : LocalDestination} (hp : d.path.At P)
    (hfree : ∀ r, w.fs.kind (P ++ [x] ++ r) = none ∧ w.fs.kind (P ++ [partialName x] ++ r) = none)
    (hsrc : SourceDir w.fs S src) (habove : ¬ S <+: P)
    (h : exec (d.store src x.val) w = (.ok (), w')) :
    (∀ r, w'.fs.kind (P ++ [x] ++ r) = copyOf w.fs S r) ∧
      ∀ z, z ≠ x → ∀ r, w'.fs.kind (P ++ [z] ++ r) = w.fs.kind (P ++ [z] ++ r) := by
  have hout : ∀ y : Name, (∀ r, w.fs.kind (P ++ [y] ++ r) = none) → ¬ P ++ [y] <+: S := by
    rintro y hy ⟨r, rfl⟩
    have hdir := hsrc.dir
    rw [hy r] at hdir
    cases hdir
  have hg : Generation w.next.fs P S x src :=
    ⟨hsrc.leads, habove, hout x (fun r => (hfree r).1), hout _ (fun r => (hfree r).2), hsrc.dir,
      hsrc.manifest⟩
  rcases store_stages hp src x w with ⟨-, -, hfile, -⟩ | ⟨-, -, heq⟩
  · have hthere := FileTree.kind_ne_none_of_isFile (hfile (by rw [h]))
    exact absurd (hfree [META_FILENAME]).1 hthere
  rw [heq] at h
  have hrooted : w.next.fs.Rooted (P ++ [partialName x]) := fun _ r => (hfree r).2
  rcases transfer_ends hp hg hrooted (guarded_ok.mp h) with ⟨hne, -⟩ | ⟨-, -, hkind⟩
  · exact absurd rfl hne
  refine ⟨fun r => ?_, fun z hz r => ?_⟩
  · rw [hkind, placed, relTo_append]
    rfl
  · rw [hkind, placed]
    have hnot : relTo (P ++ [x]) (P ++ [z] ++ r) = none :=
      relTo_eq_none.mpr (fun hq => hz (prefix_entry_iff.mp hq).symm)
    rw [hnot]
    by_cases hzp : z = partialName x
    · subst hzp
      rw [if_pos (List.prefix_append _ _)]
      exact (hfree r).2.symm
    · have hlong : ¬ P ++ [z] ++ r <+: P := by
        intro hq
        have := hq.length_le
        simp only [List.length_append, List.length_singleton] at this
        omega
      rw [if_neg (fun hq => hzp (prefix_entry_iff.mp hq).symm), if_neg hlong]
      rfl

/-- A remote store that returned, under an id that is free. -/
theorem SSHDestination.store_puts {d : SSHDestination} (ha : d.Addresses P x)
    (hw : Archived (some d.host) P w) (hx : contents (some d.host) P w x = none)
    (hsrc : SourceDir w.fs S src) (h : exec (d.store src x.val) w = (.ok (), w')) :
    (∀ r, (w'.tree (some d.host)).kind (P ++ [x] ++ r) = copyOf w.fs S r) ∧
      ∀ z, z ≠ x → ∀ r, (w'.tree (some d.host)).kind (P ++ [z] ++ r) =
        (w.tree (some d.host)).kind (P ++ [z] ++ r) := by
  have hfree := hw.free hx
  have hnotdir :
      (w.tree (some d.host)).isDir (P ++ [partialName x] ++ [META_FILENAME]) = false := by
    rw [FileTree.isDir, (hfree _).2]
  rcases store_cases ha src h with ⟨-, hfile⟩ | ⟨v, hv, htransfer, -⟩
  · exact absurd (hfree [META_FILENAME]).1 (FileTree.kind_ne_none_of_isFile (hfile rfl))
  obtain ⟨data, hdata⟩ := hsrc.manifest
  obtain ⟨u, hc, hmoved, hkind⟩ := transfer_ok ha hsrc.leads (by rw [hv.fs]; exact hdata) htransfer
  rw [hv.tree, hv.fs] at hkind
  have hbefore : ∀ z, z ≠ partialName x → ∀ r, (u.tree (some d.host)).kind (P ++ [z] ++ r) =
      (w.tree (some d.host)).kind (P ++ [z] ++ r) := fun z hz r => by
    rw [hc.kind _ _ (other_notMem_building hz r), hv.tree]
  rcases hmoved with ht | hn
  · refine ⟨fun r => ?_, fun z hz r => ?_⟩
    · rw [ht.kind_final, hkind, copyOf]
      by_cases hmeta : r = [META_FILENAME]
      · subst hmeta
        rw [received_meta, if_neg (ne_true_of_eq_false hnotdir), if_pos (.inl rfl), hdata]
      by_cases hmem : META_FILENAME ∈ r
      · rw [if_neg (by simp [hmeta, hmem]), received, if_neg, if_pos hmem, (hfree r).2]
        rw [metaTarget, if_neg (ne_true_of_eq_false hnotdir)]
        exact fun he => hmeta (List.append_cancel_left he)
      · rw [if_pos (.inr hmem), received_plain hmem, if_neg]
        rw [FileTree.isDir, (hfree r).2]
        simp
    · by_cases hzp : z = partialName x
      · subst hzp
        rw [ht.kind_partial, (hfree r).2]
      · rw [ht.kind_other hz hzp, hbefore z hzp]
  · have htaken := (FileTree.isDir_iff _ _).mp hn.taken
    have hsame := hbefore x (partialName_ne x).symm []
    rw [(hfree []).1, List.append_nil, htaken] at hsame
    cases hsame

/-- A store under an id that has its generation leaves it. -/
theorem Backend.store_again {D : Destination} (hD : Backend P D h) (hx : ArchiveId x)
    (hw : Archived h P w) (hthere : contents h P w x ≠ none)
    (htruth : h ≠ none → (w.tape 0).fault = none → (w.tape 0).status = 0) {res : Except Exn Unit}
    (hrun : exec (D.store src x.val) w = (res, w')) : Same w w' := by
  have hdir : (w.tree h).isDir (P ++ [x]) = true := by
    by_contra hnot
    rw [contents, if_neg hnot] at hthere
    exact hthere rfl
  have hfile := hw.complete x hdir
  cases hD with
  | disk hp =>
    rcases LocalDestination.store_cases hp hrun with ⟨hsame, -⟩ | ⟨hnot, -⟩
    · exact hsame
    · rw [World.fs, hfile] at hnot
      cases hnot
  | ssh hp hpath =>
    rcases SSHDestination.store_cases ⟨hp, hpath, hx.listable.literal⟩ src hrun with
      ⟨hsame, -⟩ | ⟨v, -, -, hnot | ⟨hstatus, hfault⟩⟩
    · exact hsame
    · rw [hfile] at hnot
      cases hnot
    · exact absurd (htruth (by simp) hfault) hstatus

end Store

/-- A delete that returned took everything of its id and nothing else. -/
theorem Backend.delete_drops {D : Destination} (hD : Backend P D h) (hx : ArchiveId x)
    (hw : Archived h P w) (hrun : exec (D.delete x.val) w = (.ok (), w')) :
    (∀ r, (w'.tree h).kind (P ++ [x] ++ r) = none) ∧
      ∀ z, z ≠ x → ∀ r, (w'.tree h).kind (P ++ [z] ++ r) = (w.tree h).kind (P ++ [z] ++ r) := by
  -- what has the name of the building directory was not there and did not come
  have hbuilding : ∀ r, (w.tree h).kind (P ++ [partialName x] ++ r) = none := by
    intro r
    by_contra hthere
    have hplain := (hw.names _ r hthere).2
    rw [stripSuffix_partialName] at hplain
    cases hplain
  have hothers (hr : Removes (below h (P ++ [x]) ∪ below h (P ++ [partialName x])) w w') (z : Name)
      (hz : z ≠ x) (r : Loc) :
      (w'.tree h).kind (P ++ [z] ++ r) = (w.tree h).kind (P ++ [z] ++ r) := by
    by_cases hzp : z = partialName x
    · subst hzp
      rw [hbuilding r]
      exact hr.none_of_none (hbuilding r)
    · apply hr.kind
      rintro (⟨-, hq⟩ | ⟨-, hq⟩)
      · exact hz (prefix_entry_iff.mp hq).symm
      · exact hzp (prefix_entry_iff.mp hq).symm
  cases hD with
  | @disk d hp =>
    have hr := (d.delete_removes x.val).of_exec hrun
    rw [LocalDestination.delete_spots hp] at hr
    refine ⟨fun r => ?_, hothers hr⟩
    have hgone := (LocalDestination.delete_ok hp hrun).1
    rcases (delete_uproots d x.val).of_exec hrun (P ++ [x]) with hsame | hall
    · -- there was nothing to take
      rw [hgone] at hsame
      refine hr.none_of_none ?_
      by_contra hthere
      have hdir := hw.dir x r hthere
      rw [FileTree.isDir, ← World.fs, ← hsame] at hdir
      cases hdir
    · exact hall _ (List.prefix_append _ _)
  | @ssh d hp hpath =>
    have ha : d.Addresses P x := ⟨hp, hpath, hx.listable.literal⟩
    exact ⟨fun r => SSHDestination.delete_ok ha hrun (.inl rfl) r,
      hothers ((SSHDestination.delete_removes ha).of_exec hrun)⟩

/-- Stores and deletes of a backend that returned, each after whatever went on elsewhere. The
source of a store is a directory with a manifest that is not above a directory of this node, and
`ssh` tells the truth about the manifest. -/
inductive Acts (D : Destination) (h : Option String) (P : Loc) :
    World → Deed Name Content → World → Prop where
  | store {w v w' : World} {x : Name} {S : Loc} {src : Path}
      (hv : ∀ z r, (v.tree h).kind (P ++ [z] ++ r) = (w.tree h).kind (P ++ [z] ++ r))
      (hx : ArchiveId x) (hsrc : SourceDir v.fs S src) (habove : h = none → ¬ S <+: P)
      (htruth : h ≠ none → (v.tape 0).fault = none → (v.tape 0).status = 0)
      (hstore : exec (D.store src x.val) v = (.ok (), w')) :
      Acts D h P w (.put x (copyOf v.fs S)) w'
  | delete {w v w' : World} {x : Name}
      (hv : ∀ z r, (v.tree h).kind (P ++ [z] ++ r) = (w.tree h).kind (P ++ [z] ++ r))
      (hx : ArchiveId x) (hdelete : exec (D.delete x.val) v = (.ok (), w')) :
      Acts D h P w (.drop x) w'

theorem Acts.follows {D : Destination} (hD : Backend P D h) {deed : Deed Name Content}
    (hact : Acts D h P w deed w') (hw : Archived h P w) :
    Archived h P w' ∧ contents h P w' = deed.apply (contents h P w) := by
  cases hact with
  | @store v _ x S src hv hx hsrc habove htruth hstore =>
    obtain ⟨hvw, hsame⟩ := hw.congr hv
    rw [← hsame]
    cases hthere : contents h P v x with
    | some c =>
      have hstill := hD.store_again hx hvw (by rw [hthere]; exact nofun) htruth hstore
      obtain ⟨hw', hc⟩ : Archived h P w' ∧ contents h P w' = contents h P v :=
        hvw.congr (fun z r => by rw [hstill.tree])
      refine ⟨hw', ?_⟩
      rw [hc, Deed.apply, Deed.key, Deed.onKey, hthere, Option.getD_some, ← hthere,
        Function.update_eq_self]
    | none =>
      have hdir : copyOf v.fs S [] = some .dir := (copyOf_root _ _).trans hsrc.dir
      have hmeta : ∃ data, copyOf v.fs S [META_FILENAME] = some (.file data) := by
        rw [copyOf_meta]
        exact hsrc.manifest
      have hputs : (∀ r, (w'.tree h).kind (P ++ [x] ++ r) = copyOf v.fs S r) ∧
          ∀ z, z ≠ x → ∀ r,
            (w'.tree h).kind (P ++ [z] ++ r) = (v.tree h).kind (P ++ [z] ++ r) := by
        cases hD with
        | disk hp =>
          exact LocalDestination.store_puts hp (hvw.free hthere) hsrc (habove rfl) hstore
        | ssh hp hpath =>
          exact SSHDestination.store_puts ⟨hp, hpath, hx.listable.literal⟩ hvw hthere hsrc hstore
      have hput := hvw.put hx.listable hx.plain hdir hmeta hputs.1 hputs.2
      rw [Deed.apply, Deed.key, Deed.onKey, hthere]
      exact hput
  | @delete v _ x hv hx hdelete =>
    obtain ⟨hvw, hsame⟩ := hw.congr hv
    obtain ⟨hgone, hothers⟩ := hD.delete_drops hx hvw hdelete
    rw [← hsame]
    exact hvw.drop hgone hothers

/-- Each backend refines the archive. -/
theorem Backend.refines {D : Destination} (hD : Backend P D h) :
    Refines (Acts D h P) (fun m deed => deed.apply m) (Archived h P) (contents h P) :=
  ⟨fun _ _ _ hact hw => (hact.follows hD hw).1, fun _ _ _ hact hw => (hact.follows hD hw).2⟩

/-- What is listed is the keys of the archive, each once and as complete. -/
structure Catalogue (stored : List StoredBackup) (m : Name → Option Content) : Prop where
  nodup : (stored.map (·.backup_id)).Nodup
  complete : ∀ b ∈ stored, b.complete = true
  keys : ∀ i, i ∈ stored.map (·.backup_id) ↔ ∃ x : Name, x.val = i ∧ m x ≠ none

/-- A listing made of one record for each directory lists the archive. -/
theorem Catalogue.of_records {stored : List StoredBackup} (xs : List Name)
    (hids : stored.map (·.backup_id) = xs.map (·.val)) (hnodup : xs.Nodup)
    (hcomplete : ∀ b ∈ stored, b.complete = true)
    (hxs : ∀ x, x ∈ xs ↔ (w.tree h).kind (P ++ [x]) = some .dir) :
    Catalogue stored (contents h P w) := by
  refine ⟨?_, hcomplete, fun i => ?_⟩
  · rw [hids]
    exact hnodup.map Subtype.val_injective
  · have hkey (x : Name) : x ∈ xs ↔ contents h P w x ≠ none := by
      rw [hxs, contents, ← FileTree.isDir_iff]
      cases (w.tree h).isDir (P ++ [x]) <;> simp
    rw [hids, List.mem_map]
    constructor
    · rintro ⟨x, hx, rfl⟩
      exact ⟨x, rfl, (hkey x).mp hx⟩
    · rintro ⟨x, rfl, hx⟩
      exact ⟨x, (hkey x).mpr hx, rfl⟩

theorem LocalDestination.lists {d : LocalDestination} (hp : d.path.At P) (hw : Archived none P w)
    {stored : List StoredBackup} (hlist : exec d.list_backups w = (.ok stored, w')) :
    Catalogue stored (contents none P w) := by
  obtain ⟨-, -, -, rfl⟩ := LocalDestination.list_backups_ok hp hlist
  have hrecord : ∀ x ∈ dirsIn w.fs P, (recordOf w.fs P x).backup_id = x.val ∧
      (recordOf w.fs P x).complete = true := by
    intro x hx
    have hdir := mem_dirsIn.mp hx
    have hplain := (hw.names x [] (by rw [List.append_nil]; exact hdir ▸ nofun)).2
    rw [recordOf_plain hplain]
    exact ⟨rfl, hw.complete x ((FileTree.isDir_iff _ _).mpr hdir)⟩
  refine Catalogue.of_records (dirsIn w.fs P) ?_ ((FileTree.children_nodup _ _).filter _)
    (fun b hb => ?_) (fun x => mem_dirsIn)
  · rw [records, List.map_map]
    exact List.map_congr_left (fun x hx => (hrecord x hx).1)
  · obtain ⟨x, hx, rfl⟩ := List.mem_map.mp hb
    exact (hrecord x hx).2

theorem SSHDestination.lists {d : SSHDestination} (hp : d.path.path.At P)
    (hpath : Literal d.remote_path) (hw : Archived (some d.host) P w)
    (hdir : (w.tree (some d.host)).isDir P = true) {stored : List StoredBackup}
    (hlist : exec d.list_backups w = (.ok stored, w')) :
    Catalogue stored (contents (some d.host) P w) := by
  have hnames : ∀ x, (w.tree (some d.host)).kind (P ++ [x]) = some .dir → Listable x := by
    intro x hx
    exact (hw.names x [] (by rw [List.append_nil, hx]; exact nofun)).1
  have hglob : ∀ x, x ∈ globbed (w.tree (some d.host)) P ↔
      (w.tree (some d.host)).kind (P ++ [x]) = some .dir := fun x =>
    ⟨fun hx => (mem_globbed.mp hx).1, fun hx => mem_globbed.mpr ⟨hx, (hnames x hx).dot⟩⟩
  have hecho : ∀ x ∈ globbed (w.tree (some d.host)) P,
      Echoes d.node.shell (w.tree (some d.host)) P x := by
    intro x hx
    apply echoes_of_no_backslash
    intro hslash
    have hlive := (hnames x ((hglob x).mp hx)).literal _ hslash
    revert hlive
    decide
  have hfield : ∀ x ∈ globbed (w.tree (some d.host)) P, OneField x.val.toList := fun x hx =>
    oneField_of_no_space (hnames x ((hglob x).mp hx)).space
  have hreported : ∀ x ∈ globbed (w.tree (some d.host)) P,
      reported d.node.shell (w.tree (some d.host)) P x = some ⟨x.val, true,
        Datetime.utc (reading d.node.shell (w.tree (some d.host)) P x * 1000000)⟩ := by
    intro x hx
    have hfile := hw.complete x ((FileTree.isDir_iff _ _).mpr ((hglob x).mp hx))
    rw [reported, classified, if_pos hfile]
    rfl
  have hstored := parse_list_output_ok hecho hfield (list_backups_ok hp hpath hlist hdir)
  have hmap : stored = (globbed (w.tree (some d.host)) P).map (fun x => ⟨x.val, true,
      Datetime.utc (reading d.node.shell (w.tree (some d.host)) P x * 1000000)⟩) := by
    rw [hstored, List.filterMap_congr hreported, List.filterMap_eq_map']
  refine Catalogue.of_records (globbed (w.tree (some d.host)) P) ?_ (globbed_nodup _ _)
    (fun b hb => ?_) hglob
  · rw [hmap, List.map_map]
    rfl
  · rw [hmap] at hb
    obtain ⟨x, -, rfl⟩ := List.mem_map.mp hb
    rfl

/-- The same stores and deletes, at a destination on this node and at a remote one that were
empty: what the two hold in the end is the same, under each id what was first stored since it was
last deleted, and their listings have the same ids. -/
theorem backends_keep_one_archive {d : LocalDestination} {r : SSHDestination} {P Q : Loc}
    (hp : d.path.At P) (hr : r.Reached Q) {deeds : List (Deed Name Content)} {w w' v v' : World}
    (hlocal : Run (Acts d.toDestination none P) w deeds w')
    (hremote : Run (Acts r.toDestination (some r.host) Q) v deeds v')
    (hempty : ∀ q, P <+: q → q ≠ P → w.fs.kind q = none)
    (hempty' : ∀ q, Q <+: q → q ≠ Q → (v.tree (some r.host)).kind q = none) :
    contents none P w' = contents (some r.host) Q v' ∧
      (∀ x, contents none P w' x =
        (deeds.filter (fun deed => deed.key = x)).foldl (fun c deed => deed.onKey c) none) ∧
      ∀ stored stored' u u', exec d.list_backups w' = (.ok stored, u) →
        exec r.list_backups v' = (.ok stored', u') → (v'.tree (some r.host)).isDir Q = true →
          (stored.map (·.backup_id)).Perm (stored'.map (·.backup_id)) ∧
            ∀ b ∈ stored ++ stored', b.complete = true := by
  obtain ⟨hw, hnone⟩ := Archived.of_empty (h := none) hempty
  obtain ⟨hv, hnone'⟩ := Archived.of_empty hempty'
  obtain ⟨hw', hrun⟩ := (Backend.disk hp).refines.run hlocal hw
  have hv' := ((Backend.ssh hr.path hr.remote_path).refines.run hremote hv).1
  have hsame : contents none P w' = contents (some r.host) Q v' :=
    (Backend.disk hp).refines.agree (Backend.ssh hr.path hr.remote_path).refines hlocal hremote hw
      hv (hnone.trans hnone'.symm)
  refine ⟨hsame, fun x => ?_, fun stored stored' u u' hlist hlist' hdir => ?_⟩
  · rw [hrun, hnone, Deed.foldl_apply]
  · have hl := LocalDestination.lists hp hw' hlist
    have hl' := SSHDestination.lists hr.path hr.remote_path hv' hdir hlist'
    refine ⟨?_, fun b hb => ?_⟩
    · rw [List.perm_ext_iff_of_nodup hl.nodup hl'.nodup]
      intro i
      rw [hl.keys, hl'.keys, hsame]
    · exact (List.mem_append.mp hb).elim (hl.complete b) (hl'.complete b)

/-- Copies of one directory of two trees that agree wherever either has something. -/
theorem copyOf_eq_of_locs {t t' : Fs} {S : Loc}
    (h : ∀ q ∈ t.locs ++ t'.locs, S <+: q → t.kind q = t'.kind q) : copyOf t S = copyOf t' S := by
  apply copyOf_congr
  intro r
  by_cases hmem : S ++ r ∈ t.locs ++ t'.locs
  · exact h _ hmem (List.prefix_append _ _)
  · rw [List.mem_append, not_or] at hmem
    have hnone (t : Fs) (hq : S ++ r ∉ t.locs) : t.kind (S ++ r) = none := by
      by_contra hk
      exact hq (t.finite _ (fun hn => hk (congrArg (Option.map Node.kind) hn)))
    rw [hnone t hmem.1, hnone t' hmem.2]

/-- A store, its deletion and a store under another id, all of which return. -/
theorem three_deeds_run {D : Destination} {h : Option String} {w u v w' : World}
    (hstore : exec (D.store (Path.configured [] (PurePath.parse "/w/x")) "x") w = (.ok (), u))
    (hdelete : exec (D.delete "x") u = (.ok (), v))
    (hagain : exec (D.store (Path.configured [] (PurePath.parse "/w/x")) "y") v = (.ok (), w'))
    (hsrc : SourceDir w.fs [entry "w", entry "x"] (Path.configured [] (PurePath.parse "/w/x")))
    (hcopy : copyOf v.fs [entry "w", entry "x"] = copyOf w.fs [entry "w", entry "x"])
    (htruth : (w.tape 0).status = 0) (htruth' : (v.tape 0).status = 0) :
    Run (Acts D h [entry "b"]) w [.put (entry "x") (copyOf w.fs [entry "w", entry "x"]),
      .drop (entry "x"), .put (entry "y") (copyOf w.fs [entry "w", entry "x"])] w' := by
  have hx : ArchiveId (entry "x") := ⟨⟨by decide, by decide, by decide⟩, by decide⟩
  have hy : ArchiveId (entry "y") := ⟨⟨by decide, by decide, by decide⟩, by decide⟩
  have habove : ¬ [entry "w", entry "x"] <+: [entry "b"] := by decide
  obtain ⟨data, hdata⟩ := hsrc.manifest
  have hroot := congrFun hcopy []
  have hmeta := congrFun hcopy [META_FILENAME]
  rw [copyOf_root, copyOf_root] at hroot
  rw [copyOf_meta, copyOf_meta] at hmeta
  have hsrc' : SourceDir v.fs [entry "w", entry "x"] (Path.configured [] (PurePath.parse "/w/x")) :=
    ⟨hsrc.leads, hroot.trans hsrc.dir, data, hmeta.trans hdata⟩
  have hthird :
      Acts D h [entry "b"] v (.put (entry "y") (copyOf w.fs [entry "w", entry "x"])) w' := by
    rw [← hcopy]
    exact .store (fun _ _ => rfl) hy hsrc' (fun _ => habove) (fun _ _ => htruth') hagain
  refine .more ?_ (.more (.delete (fun _ _ => rfl) hx hdelete) (.more hthird (.done _)))
  exact .store (fun _ _ => rfl) hx hsrc (fun _ => habove) (fun _ _ => htruth) hstore

/-- At each backend the second id is left. -/
theorem backends_keep_one_archive_three :
    contents none [entry "b"] (threeDeeds smallLocal.toDestination SSHDestination.freshWorld) =
        contents (some "vault") [entry "b"]
          (threeDeeds smallRemote.toDestination SSHDestination.freshWorld) ∧
      (contents none [entry "b"] (threeDeeds smallLocal.toDestination SSHDestination.freshWorld)
        (entry "x")).isSome = false ∧
      (contents none [entry "b"] (threeDeeds smallLocal.toDestination SSHDestination.freshWorld)
        (entry "y")).isSome = true := by
  have hat : smallLocal.path.At [entry "b"] := ⟨⟨[], rfl, by decide⟩, rfl⟩
  have hat' : smallRemote.Reached [entry "b"] :=
    ⟨⟨⟨[], rfl, by decide⟩, rfl⟩, by decide, by decide⟩
  have hempty (t : Fs) (hall : ∀ q ∈ t.locs, [entry "b"] <+: q → q = [entry "b"]) (q : Loc)
      (hq : [entry "b"] <+: q) (hne : q ≠ [entry "b"]) : t.kind q = none := by
    by_contra hk
    exact hne (hall q (FileTree.finite _ q (fun hn => hk (congrArg (Option.map Node.kind) hn))) hq)
  have hlocal := @three_deeds_run smallLocal.toDestination none SSHDestination.freshWorld _ _ _
    (exec_of_ok (by decide +kernel)) (exec_of_ok (by decide +kernel))
    (exec_of_ok (by decide +kernel)) SSHDestination.freshWorld_source
    (copyOf_eq_of_locs (by decide +kernel)) rfl (by decide +kernel)
  have hremote := @three_deeds_run smallRemote.toDestination (some "vault")
    SSHDestination.freshWorld _ _ _ (exec_of_ok (by decide +kernel))
    (exec_of_ok (by decide +kernel)) (exec_of_ok (by decide +kernel))
    SSHDestination.freshWorld_source (copyOf_eq_of_locs (by decide +kernel)) rfl
    (by decide +kernel)
  have hsame := (backends_keep_one_archive hat hat' hlocal hremote (hempty _ (by decide))
    (hempty _ (by decide))).1
  exact ⟨hsame, by decide +kernel, by decide +kernel⟩

end MbKeeper
