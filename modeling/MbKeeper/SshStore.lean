import MbKeeper.SshEffects

/-!
# What an ssh store leaves

`store` renames `<id>.partial` to `<id>` by `mv`, which puts the directory into
`<id>` when there is one. What the rename meets decides whether the store did
what its caller takes it to have done: these are the states of the remote
directory in which it does, for one store that returned, and the runs of stores
over a bad connection in which a committed generation stays as it was.
-/
namespace MbKeeper

/-- A directory with a manifest at its top. -/
structure SourceDir (t : Fs) (S : Loc) (src : Path) : Prop where
  leads : src.At S
  dir : t.kind S = some .dir
  manifest : ∃ data, t.kind (S ++ [META_FILENAME]) = some (.file data)

namespace SSHDestination

variable {d : SSHDestination} {P S : Loc} {x : Name} {src : Path} {w w' : World}

/-- Entries of the destination other than the two of `x` are not in their way. -/
theorem other_notMem_building {h : String} {y : Name} (hy : y ≠ partialName x) (r : Loc) :
    (some h, P ++ [y] ++ r) ∉ building h P x := by
  rintro (⟨-, hq⟩ | ⟨-, hq⟩)
  · have := hq.length_le
    simp only [List.length_append, List.length_singleton] at this
    omega
  · exact hy (prefix_entry_iff.mp hq).symm

theorem Takes.kind_final {h : String} {u : World} (ht : Takes h P x u w') (r : Loc) :
    (w'.tree (some h)).kind (P ++ [x] ++ r) =
      (u.tree (some h)).kind (P ++ [partialName x] ++ r) := by
  obtain ⟨s, htree⟩ := ht.tree
  rw [htree, World.tree_setTree_self, FileTree.kind_move_append]

theorem Takes.kind_partial {h : String} {u : World} (ht : Takes h P x u w') (r : Loc) :
    (w'.tree (some h)).kind (P ++ [partialName x] ++ r) = none := by
  obtain ⟨s, htree⟩ := ht.tree
  rw [htree, World.tree_setTree_self, FileTree.kind_move_source]
  · exact fun hq => partialName_ne x (prefix_entry_iff.mp hq).symm
  · exact List.prefix_append _ _

theorem Takes.kind_other {h : String} {u : World} (ht : Takes h P x u w') {y : Name} (hyx : y ≠ x)
    (hyp : y ≠ partialName x) (r : Loc) :
    (w'.tree (some h)).kind (P ++ [y] ++ r) = (u.tree (some h)).kind (P ++ [y] ++ r) := by
  obtain ⟨s, htree⟩ := ht.tree
  rw [htree, World.tree_setTree_self, FileTree.kind_move_of_outside]
  · exact fun hq => hyx (prefix_entry_iff.mp hq).symm
  · exact fun hq => hyp (prefix_entry_iff.mp hq).symm

/-- Where it nests, the directory that was built is in the one that has the name. -/
theorem Nests.kind_nested {h : String} {u : World} (hn : Nests h P x u w') (r : Loc) :
    (w'.tree (some h)).kind (P ++ [x] ++ [partialName x] ++ r) =
      (u.tree (some h)).kind (P ++ [partialName x] ++ r) := by
  obtain ⟨s, htree⟩ := hn.tree
  rw [htree, World.tree_setTree_self, FileTree.kind_move_append]

theorem Nests.kind_of_outside {h : String} {u : World} (hn : Nests h P x u w') {q : Loc}
    (hq : ¬ P ++ [x] ++ [partialName x] <+: q) (hb : ¬ P ++ [partialName x] <+: q) :
    (w'.tree (some h)).kind q = (u.tree (some h)).kind q := by
  obtain ⟨s, htree⟩ := hn.tree
  rw [htree, World.tree_setTree_self, FileTree.kind_move_of_outside _ _ hq hb]

theorem Nests.kind_partial {h : String} {u : World} (hn : Nests h P x u w') (r : Loc) :
    (w'.tree (some h)).kind (P ++ [partialName x] ++ r) = none := by
  obtain ⟨s, htree⟩ := hn.tree
  have hout : ¬ P ++ [x] ++ [partialName x] <+: P ++ [partialName x] ++ r := by
    rw [List.append_assoc, List.append_assoc, List.prefix_append_right_inj]
    exact fun hq => partialName_ne x (List.cons_prefix_cons.mp hq).1.symm
  rw [htree, World.tree_setTree_self, FileTree.kind_move_source _ _ hout (List.prefix_append _ _)]

/-- What a store that returned promises: `x` is there and complete, its building directory is
neither beside it nor in it, and the other entries are as they were. -/
structure Stored (h : String) (P : Loc) (x : Name) (w w' : World) : Prop where
  dir : (w'.tree (some h)).kind (P ++ [x]) = some .dir
  complete : (w'.tree (some h)).isFile (P ++ [x] ++ [META_FILENAME]) = true
  beside : (w'.tree (some h)).kind (P ++ [partialName x]) = none
  nested : (w'.tree (some h)).kind (P ++ [x] ++ [partialName x]) = none
  others : ∀ y, y ≠ x → y ≠ partialName x → ∀ r,
    (w'.tree (some h)).kind (P ++ [y] ++ r) = (w.tree (some h)).kind (P ++ [y] ++ r)

/-- The remote trees in which a store of the source at `S` keeps its promise. A complete
generation is left alone, with what lies around it. Otherwise nothing may have the name, and the
building directory may hold nothing that the transfer leaves in it: a directory in the place of
the manifest, or a directory of its own name with a manifest somewhere below. -/
def Storable (t source : Fs) (S P : Loc) (x : Name) : Prop :=
  if t.isFile (P ++ [x] ++ [META_FILENAME]) = true then
    t.kind (P ++ [partialName x]) = none ∧ t.kind (P ++ [x] ++ [partialName x]) = none
  else t.isDir (P ++ [x]) = false ∧
    t.isDir (P ++ [partialName x] ++ [META_FILENAME]) = false ∧
    source.kind (S ++ [partialName x]) = none ∧
    ¬ (t.isDir (P ++ [partialName x] ++ [partialName x]) = true ∧
      t.holdsSkipped (P ++ [partialName x]) (excludes (· = META_FILENAME))
        (P ++ [partialName x] ++ [partialName x]) = true)

instance (t source : Fs) (S P : Loc) (x : Name) : Decidable (Storable t source S P x) :=
  inferInstanceAs (Decidable (ite _ _ _))

theorem received_meta (t source : Fs) (S P : Loc) (x : Name) (data : String) :
    received t source S P x data [META_FILENAME] =
      if t.isDir (P ++ [partialName x] ++ [META_FILENAME]) = true then
        t.kind (P ++ [partialName x] ++ [META_FILENAME])
      else some (.file data) := by
  rw [received, metaTarget]
  cases t.isDir (P ++ [partialName x] ++ [META_FILENAME]) <;> simp

/-- Apart from the manifest and excluded names it is the source, and what the source lacks. -/
theorem received_plain {t source : Fs} {S P : Loc} {x : Name} {data : String} {r : Loc}
    (hr : META_FILENAME ∉ r) : received t source S P x data r =
      if source.kind (S ++ r) = none ∧ t.isDir (P ++ [partialName x] ++ r) = true ∧
        t.holdsSkipped (P ++ [partialName x]) (excludes (· = META_FILENAME))
          (P ++ [partialName x] ++ r) = true then some .dir
      else source.kind (S ++ r) := by
  have htarget : P ++ [partialName x] ++ r ≠ metaTarget t P x := by
    intro he
    rw [metaTarget] at he
    split_ifs at he
    · rw [List.append_assoc _ [META_FILENAME]] at he
      exact hr (by rw [List.append_cancel_left he]; simp)
    · exact hr (by rw [List.append_cancel_left he]; simp)
  rw [received, if_neg htarget, if_neg hr]

/-- A store that went through the transfer keeps its promise where `Storable` says. -/
theorem transfer_stored_iff (ha : d.Addresses P x) (hsrc : SourceDir w.fs S src)
    (hfile : (w.tree (some d.host)).isFile (P ++ [x] ++ [META_FILENAME]) = false)
    (h : exec (d.transfer src x.val) w = (.ok (), w')) :
    Stored d.host P x w w' ↔ Storable (w.tree (some d.host)) w.fs S P x := by
  obtain ⟨data, hdata⟩ := hsrc.manifest
  obtain ⟨u, hc, hmoved, hkind⟩ := transfer_ok ha hsrc.leads hdata h
  have hfinal : ∀ r, (u.tree (some d.host)).kind (P ++ [x] ++ r) =
      (w.tree (some d.host)).kind (P ++ [x] ++ r) := fun r =>
    hc.kind _ _ (other_notMem_building (partialName_ne x).symm r)
  have hroot : (u.tree (some d.host)).kind (P ++ [partialName x]) = some .dir := by
    have hkept := hkind []
    rw [received_plain (by simp), List.append_nil, List.append_nil, if_neg] at hkept
    · exact hkept.trans hsrc.dir
    · rw [hsrc.dir]
      exact fun hn => by cases hn.1
  have hsame :
      (u.tree (some d.host)).isDir (P ++ [x]) = (w.tree (some d.host)).isDir (P ++ [x]) := by
    have := hfinal []
    rw [List.append_nil] at this
    exact FileTree.isDir_congr this
  rw [Storable, if_neg (ne_true_of_eq_false hfile)]
  rcases hmoved with ht | hn
  · have hmeta := (ht.kind_final [META_FILENAME]).trans (hkind _)
    have hnest := (ht.kind_final [partialName x]).trans (hkind _)
    rw [received_meta] at hmeta
    rw [received_plain (by simpa using (partialName_ne_meta x).symm)] at hnest
    constructor
    · intro hs
      refine ⟨hsame ▸ ht.free, ?_, ?_⟩
      · cases hdir : (w.tree (some d.host)).isDir (P ++ [partialName x] ++ [META_FILENAME]) with
        | false => rfl
        | true =>
          rw [hdir, if_pos rfl, (FileTree.isDir_iff _ _).mp hdir] at hmeta
          have hcomplete := hs.complete
          rw [FileTree.isFile_of_dir hmeta] at hcomplete
          cases hcomplete
      · rw [hs.nested] at hnest
        split_ifs at hnest with hheld
        refine ⟨hnest.symm, fun hh => hheld ⟨hnest.symm, hh⟩⟩
    · rintro ⟨-, hdir, hsource, hheld⟩
      rw [hdir, if_neg (by simp)] at hmeta
      refine ⟨?_, (FileTree.isFile_iff _ _).mpr ⟨data, hmeta⟩, ?_, ?_, fun y hyx hyp r => ?_⟩
      · have := ht.kind_final []
        rwa [List.append_nil, List.append_nil, hroot] at this
      · have := ht.kind_partial []
        rwa [List.append_nil] at this
      · rw [hnest, if_neg (fun hh => hheld hh.2), hsource]
      · rw [ht.kind_other hyx hyp, hc.kind _ _ (other_notMem_building hyp r)]
  · constructor
    · intro hs
      have := hn.kind_nested []
      rw [List.append_nil, List.append_nil, hs.nested, hroot] at this
      cases this
    · rintro ⟨hfree, -⟩
      rw [← hsame, hn.taken] at hfree
      cases hfree

/-- A store of a source with a manifest that returned, and that had been told the truth about
the manifest, keeps its promise exactly where `Storable` says. -/
theorem store_postcondition_iff (ha : d.Addresses P x) (hsrc : SourceDir w.fs S src)
    (htree : (w.tree (some d.host)).Housed)
    (htruth : (w.tape 0).fault = none → (w.tape 0).status = 0)
    (h : exec (d.store src x.val) w = (.ok (), w')) :
    Stored d.host P x w w' ↔ Storable (w.tree (some d.host)) w.fs S P x := by
  rcases store_cases ha src h with ⟨hsame, hfile⟩ | ⟨v, hv, htransfer, hor⟩
  · have hcomplete := hfile rfl
    have hdir := htree _ _ (FileTree.kind_ne_none_of_isFile hcomplete)
    rw [Storable, if_pos hcomplete]
    constructor
    · intro hs
      exact ⟨by rw [← hs.beside, hsame.tree], by rw [← hs.nested, hsame.tree]⟩
    · rintro ⟨hbeside, hnested⟩
      exact ⟨by rw [hsame.tree, hdir], by rw [hsame.tree, hcomplete], by rw [hsame.tree, hbeside],
        by rw [hsame.tree, hnested], fun y _ _ r => by rw [hsame.tree]⟩
  · have hfile : (w.tree (some d.host)).isFile (P ++ [x] ++ [META_FILENAME]) = false :=
      hor.elim id (fun hf => absurd (htruth hf.2) hf.1)
    have hiff := transfer_stored_iff ha (w := v) (by rw [hv.fs]; exact hsrc)
      (by rw [hv.tree]; exact hfile) htransfer
    rw [hv.tree, hv.fs] at hiff
    refine Iff.trans ⟨fun hs => ?_, fun hs => ?_⟩ hiff
    · exact ⟨hs.dir, hs.complete, hs.beside, hs.nested, fun y hyx hyp r => by
        rw [hs.others y hyx hyp, hv.tree]⟩
    · exact ⟨hs.dir, hs.complete, hs.beside, hs.nested, fun y hyx hyp r => by
        rw [hs.others y hyx hyp, hv.tree]⟩

theorem smallRemote_addresses {x : Name} (hx : Literal x.val) :
    smallRemote.Addresses [entry "b"] x :=
  ⟨⟨⟨[], rfl, by decide⟩, rfl⟩, by decide, hx⟩

/-- A directory of the name, without a manifest. -/
def takenWorld : World :=
  remoteWorld (smallTree.addGeneration [entry "w", entry "x"])
    (smallTree.create [entry "b", entry "x"] .dir 0)

/-- It takes the new directory into itself. -/
theorem store_nests_in_taken :
    ∃ w', exec (smallRemote.store (Path.configured [] (PurePath.parse "/w/x")) "x") takenWorld =
        (.ok (), w') ∧
      (∀ n, (takenWorld.tape n).fault = none ∧ (takenWorld.tape n).status = 0) ∧
      ¬ Stored "vault" [entry "b"] (entry "x") takenWorld w' := by
  have hok : (exec (smallRemote.store (Path.configured [] (PurePath.parse "/w/x")) "x")
      takenWorld).1 = .ok () := by decide +kernel
  refine ⟨_, exec_of_ok hok, fun _ => ⟨rfl, rfl⟩, fun h => absurd h.nested ?_⟩
  decide +kernel

/-- Nothing has the name yet. -/
def freshWorld : World := remoteWorld (smallTree.addGeneration [entry "w", entry "x"]) smallTree

theorem freshWorld_source : SourceDir freshWorld.fs [entry "w", entry "x"]
    (Path.configured [] (PurePath.parse "/w/x")) :=
  ⟨⟨⟨[], rfl, by decide⟩, rfl⟩, by decide, "", by decide⟩

/-- The remote directory has another generation and what an earlier attempt left of this one. -/
def leftoverWorld : World :=
  remoteWorld (smallTree.addGeneration [entry "w", entry "x"])
    (((smallTree.addGeneration [entry "b", entry "y"]).create [entry "b", entry "x.partial"] .dir 0
      ).create [entry "b", entry "x.partial", entry "old"] (.file "") 0)

theorem store_postcondition_iff_leftover :
    Stored "vault" [entry "b"] (entry "x") leftoverWorld
      (exec (smallRemote.store (Path.configured [] (PurePath.parse "/w/x")) "x")
        leftoverWorld).2 := by
  have hok : (exec (smallRemote.store (Path.configured [] (PurePath.parse "/w/x")) "x")
      leftoverWorld).1 = .ok () := by decide +kernel
  have hsrc : SourceDir leftoverWorld.fs [entry "w", entry "x"]
      (Path.configured [] (PurePath.parse "/w/x")) := freshWorld_source
  have hhoused : (leftoverWorld.tree (some smallRemote.host)).Housed :=
    FileTree.housed_of_locs (by decide)
  exact (store_postcondition_iff (smallRemote_addresses (x := entry "x") (by decide)) hsrc hhoused
    (fun _ => rfl) (exec_of_ok hok)).mpr (by decide +kernel)

/-- Any number of stores of one generation, each of which begins in a world that is `Good`, and
in which the calls may fail in any way. -/
inductive Attempts (d : SSHDestination) (src : Path) (x : Name) (Good : World → Prop) (w : World) :
    World → Prop where
  | none : Attempts d src x Good w w
  | again {u v : World} (h : Attempts d src x Good w u) (htree : v.tree = u.tree)
      (hcommits : v.commits = u.commits) (hgood : Good v) :
      Attempts d src x Good w (exec (d.store src x.val) v).2

/-- The answer to `test -f` is no failure of `ssh` where the generation is complete. -/
def Answered (h : String) (P : Loc) (x : Name) (w : World) : Prop :=
  (w.tree (some h)).isFile (P ++ [x] ++ [META_FILENAME]) = true → (w.tape 0).fault = none →
    (w.tape 0).status = 0

/-- The generation is not there until it is committed. -/
def AbsentUntilCommitted (h : String) (P : Loc) (x : Name) (w : World) : Prop :=
  x ∉ committed (some h) P w → ∀ r, (w.tree (some h)).kind (P ++ [x] ++ r) = none

theorem AbsentUntilCommitted.congr {h : String} (hw : AbsentUntilCommitted h P x w)
    (hkind : ∀ r, (w'.tree (some h)).kind (P ++ [x] ++ r) = (w.tree (some h)).kind (P ++ [x] ++ r))
    (hcommits : w'.commits = w.commits) : AbsentUntilCommitted h P x w' := by
  intro hx r
  rw [hkind]
  exact hw (by rwa [← committed_congr hcommits]) r

/-- A store commits the generation or leaves it absent. -/
theorem AbsentUntilCommitted.store (ha : d.Addresses P x) (hS : src.At S)
    (hw : AbsentUntilCommitted d.host P x w) :
    AbsentUntilCommitted d.host P x (exec (d.store src x.val) w).2 := by
  have hfinal : ∀ {u v : World}, Confined (building d.host P x) u v → ∀ r,
      (v.tree (some d.host)).kind (P ++ [x] ++ r) = (u.tree (some d.host)).kind (P ++ [x] ++ r) :=
    fun hc r => hc.kind _ _ (other_notMem_building (partialName_ne x).symm r)
  rcases store_cases ha src (Prod.eta (exec (d.store src x.val) w)).symm with
    ⟨hsame, -⟩ | ⟨v, hv, htransfer, -⟩
  · exact hw.congr (fun r => by rw [hsame.tree]) hsame.commits
  have hwv : AbsentUntilCommitted d.host P x v := hw.congr (fun r => by rw [hv.tree]) hv.commits
  rcases transfer_cases ha hS htransfer with ⟨hc, -⟩ | ⟨u, hc, hmoved, -⟩
  · exact hwv.congr (hfinal hc) hc.commits
  rcases hmoved with ht | hn
  · intro hx
    rw [committed_append ht.commits] at hx
    exact absurd (List.mem_append_right _ (List.mem_singleton_self x)) hx
  · -- a directory has the name, so the generation was committed before
    intro hx r
    rw [committed_congr hn.commits] at hx
    have hu := hwv.congr (hfinal hc) hc.commits hx []
    rw [List.append_nil] at hu
    have := (FileTree.isDir_iff _ _).mp hn.taken
    rw [hu] at this
    cases this

/-- A store that is told the truth about a complete generation leaves it as it is. -/
theorem store_complete (ha : d.Addresses P x) (hanswer : Answered d.host P x w)
    (hfile : (w.tree (some d.host)).isFile (P ++ [x] ++ [META_FILENAME]) = true) :
    Same w (exec (d.store src x.val) w).2 := by
  rcases store_cases ha src (Prod.eta (exec (d.store src x.val) w)).symm with
    ⟨hsame, -⟩ | ⟨v, -, -, hnot | ⟨hstatus, hfault⟩⟩
  · exact hsame
  · rw [hfile] at hnot
    cases hnot
  · exact absurd (hanswer hfile hfault) hstatus

/-- A store that returned has committed the generation, or found it committed. -/
theorem committed_of_ok (ha : d.Addresses P x) (hS : src.At S)
    (hw : AbsentUntilCommitted d.host P x w)
    (h : exec (d.store src x.val) w = (.ok (), w')) : x ∈ committed (some d.host) P w' := by
  by_contra hx
  have hafter : AbsentUntilCommitted d.host P x (exec (d.store src x.val) w).2 := hw.store ha hS
  rw [h] at hafter
  have habsent := hafter hx
  rcases store_cases ha src h with ⟨hsame, hfile⟩ | ⟨v, hv, htransfer, -⟩
  · have hthere := FileTree.kind_ne_none_of_isFile (hfile rfl)
    rw [← hsame.tree] at hthere
    exact hthere (habsent _)
  rcases transfer_cases ha hS htransfer with ⟨-, hne⟩ | ⟨u, -, ht | hn, -⟩
  · exact hne rfl
  · rw [committed_append ht.commits] at hx
    exact hx (List.mem_append_right _ (List.mem_singleton_self x))
  · have hdir := hn.kind_of_outside (q := P ++ [x]) (fun hq => ?_) (fun hq => ?_)
    · have hnone := habsent []
      rw [List.append_nil, hdir, (FileTree.isDir_iff _ _).mp hn.taken] at hnone
      cases hnone
    · have := hq.length_le
      simp only [List.length_append, List.length_singleton] at this
      omega
    · rw [List.prefix_append_right_inj] at hq
      exact partialName_ne x (by simpa using hq)

/-- Over any number of stores of a generation that was not there, each told the truth about a
complete generation unless the call itself fails: until one has committed it is not there, a
store that returns has committed it or found it committed, and once it is complete it stays as
it is. -/
theorem committed_generation_undamaged (ha : d.Addresses P x) (hS : src.At S)
    (hw : ∀ r, (w.tree (some d.host)).kind (P ++ [x] ++ r) = none) {u : World}
    (hu : Attempts d src x (Answered d.host P x) w u) :
    (x ∉ committed (some d.host) P u → ∀ r, (u.tree (some d.host)).kind (P ++ [x] ++ r) = none) ∧
      (∀ v w', v.tree = u.tree → v.commits = u.commits →
        exec (d.store src x.val) v = (.ok (), w') → x ∈ committed (some d.host) P w') ∧
      ((u.tree (some d.host)).isFile (P ++ [x] ++ [META_FILENAME]) = true →
        ∀ v, Attempts d src x (Answered d.host P x) u v →
          ∀ r, (v.tree (some d.host)).kind (P ++ [x] ++ r) =
            (u.tree (some d.host)).kind (P ++ [x] ++ r)) := by
  have hinv : AbsentUntilCommitted d.host P x u := by
    induction hu with
    | none => exact fun _ => hw
    | again _ htree hcommits _ ih =>
      exact (ih.congr (fun r => by rw [htree]) hcommits).store ha hS
  refine ⟨hinv, fun v w' htree hcommits h => ?_, fun hfile v hv => ?_⟩
  · exact committed_of_ok ha hS (hinv.congr (fun r => by rw [htree]) hcommits) h
  · have hsame : v.tree = u.tree := by
      induction hv with
      | none => rfl
      | @again u' v' _ htree _ hgood ih =>
        have hthere : (v'.tree (some d.host)).isFile (P ++ [x] ++ [META_FILENAME]) = true := by
          rw [htree, ih, hfile]
        rw [(store_complete ha hgood hthere).tree, htree, ih]
    intro r
    rw [hsame]

/-- Where the store of `/w/x` leaves the world. -/
def smallStored (w : World) : World :=
  (exec (smallRemote.store (Path.configured [] (PurePath.parse "/w/x")) "x") w).2

/-- The same, but `ssh` fails to answer the first command. -/
def unanswered (w : World) : World :=
  { w with tape := fun n => if n = 0 then { Reply.good 0 with status := 255 } else Reply.good 0 }

theorem smallStored_again {Good : World → Prop} {w u : World} (v : World)
    (h : Attempts smallRemote (Path.configured [] (PurePath.parse "/w/x")) (entry "x") Good w u)
    (htree : v.tree = u.tree) (hcommits : v.commits = u.commits) (hgood : Good v) :
    Attempts smallRemote (Path.configured [] (PurePath.parse "/w/x")) (entry "x") Good w
      (smallStored v) := .again h htree hcommits hgood

theorem unanswered_tree (w : World) : (unanswered w).tree = w.tree := rfl

theorem unanswered_commits (w : World) : (unanswered w).commits = w.commits := rfl

theorem smallStored_unanswered (u : World) :
    Attempts smallRemote (Path.configured [] (PurePath.parse "/w/x")) (entry "x") (fun _ => True) u
      (smallStored (unanswered u)) :=
  smallStored_again (unanswered u) .none (unanswered_tree u) (unanswered_commits u) trivial

/-- The second store takes the failure of `ssh` for a missing manifest, and its rename puts the
copy into the generation. -/
theorem committed_generation_damaged :
    ∃ u v, Attempts smallRemote (Path.configured [] (PurePath.parse "/w/x")) (entry "x")
        (fun _ => True) freshWorld u ∧
      Attempts smallRemote (Path.configured [] (PurePath.parse "/w/x")) (entry "x")
        (fun _ => True) u v ∧
      (u.tree (some smallRemote.host)).isFile ([entry "b", entry "x"] ++ [META_FILENAME]) = true ∧
      (u.tree (some smallRemote.host)).kind ([entry "b", entry "x"] ++ [entry "x.partial"]) = none ∧
      (v.tree (some smallRemote.host)).kind ([entry "b", entry "x"] ++ [entry "x.partial"]) =
        some .dir := by
  refine ⟨smallStored freshWorld, smallStored (unanswered (smallStored freshWorld)), ?_, ?_, ?_,
    ?_, ?_⟩
  · exact smallStored_again _ .none rfl rfl trivial
  · exact smallStored_unanswered _
  all_goals decide +kernel

theorem committed_generation_undamaged_two :
    ∃ u, Attempts smallRemote (Path.configured [] (PurePath.parse "/w/x")) (entry "x")
        (Answered smallRemote.host [entry "b"] (entry "x")) freshWorld u ∧
      (u.tree (some smallRemote.host)).isFile
          ([entry "b"] ++ [entry "x"] ++ [META_FILENAME]) = true ∧
      ∀ v, Attempts smallRemote (Path.configured [] (PurePath.parse "/w/x")) (entry "x")
        (Answered smallRemote.host [entry "b"] (entry "x")) u v → ∀ r,
          (v.tree (some smallRemote.host)).kind ([entry "b"] ++ [entry "x"] ++ r) =
            (u.tree (some smallRemote.host)).kind ([entry "b"] ++ [entry "x"] ++ r) := by
  have hu : Attempts smallRemote (Path.configured [] (PurePath.parse "/w/x")) (entry "x")
      (Answered smallRemote.host [entry "b"] (entry "x")) freshWorld (smallStored freshWorld) :=
    smallStored_again _ .none rfl rfl (fun _ _ => rfl)
  have habsent : ∀ r, (freshWorld.tree (some smallRemote.host)).kind
      ([entry "b"] ++ [entry "x"] ++ r) = none :=
    FileTree.rooted_of_locs (by decide) _ (by decide)
  have hcomplete : ((smallStored freshWorld).tree (some smallRemote.host)).isFile
      ([entry "b"] ++ [entry "x"] ++ [META_FILENAME]) = true := by
    decide +kernel
  have hall := committed_generation_undamaged (smallRemote_addresses (x := entry "x") (by decide))
    freshWorld_source.leads habsent hu
  exact ⟨_, hu, hcomplete, hall.2.2 hcomplete⟩

end SSHDestination

end MbKeeper
