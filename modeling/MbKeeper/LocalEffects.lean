import MbKeeper.Local

/-!
# What the local destination does to the tree

`delete` touches nothing but the two directories of its id. `store` builds in
`<id>.partial`; `store_cases` says that a call either stayed there or renamed
once, and what was committed by the rename.
-/
namespace MbKeeper

theorem partialName_ne (x : Name) : partialName x ≠ x := by
  intro h
  have hlen := congrArg (fun y : Name => y.val.toList.length) h
  simp [partialName, PARTIAL_SUFFIX] at hlen

theorem partialName_ne_meta (x : Name) : partialName x ≠ META_FILENAME := by
  intro h
  have hs := stripSuffix_partialName x
  rw [h] at hs
  have hnone : stripSuffix PARTIAL_SUFFIX META_FILENAME.val = none := by decide
  rw [hnone] at hs
  cases hs

namespace LocalDestination

variable {d : LocalDestination} {P : Loc}

theorem delete_name_removes (d : LocalDestination) (name : String) :
    Moves (Removes (below none (d.path.join name).loc)) (d.delete_name name) := by
  refine Moves.bind (fun w => ?_) (fun _ => Moves.ite (guarded_moves _ (rmtree_removes _ _))
    (Moves.pure _))
  rw [path_exists, exec_ask_state]
  exact (same_next w).removes _

/-- The spots that `delete` may empty. -/
def deleteSpots (d : LocalDestination) (backup_id : String) : Set Spot :=
  below none (d.path.join backup_id).loc ∪
    below none (d.path.join (backup_id ++ PARTIAL_SUFFIX)).loc

theorem delete_removes (d : LocalDestination) (backup_id : String) :
    Moves (Removes (d.deleteSpots backup_id)) (d.delete backup_id) :=
  Moves.bind ((d.delete_name_removes _).mono (fun _ _ h => h.mono Set.subset_union_left))
    (fun _ => (d.delete_name_removes _).mono (fun _ _ h => h.mono Set.subset_union_right))

theorem delete_spots (hp : d.path.At P) (x : Name) :
    d.deleteSpots x.val = below none (P ++ [x]) ∪ below none (P ++ [partialName x]) := by
  rw [deleteSpots, (hp.join x).loc_eq, show x.val ++ PARTIAL_SUFFIX = (partialName x).val from rfl,
    (hp.join (partialName x)).loc_eq]

theorem delete_name_ok (hp : d.path.At P) {x : Name} {w w' : World}
    (h : exec (d.delete_name x.val) w = (.ok (), w')) : w'.fs.kind (P ++ [x]) = none := by
  obtain ⟨there, u, hu, h⟩ := exec_bind_eq_ok h
  have hx := hp.join x
  have hthere := (path_exists_reads hx).ok w there (by rw [hu])
  have hsame := (path_exists_reads hx).same w
  rw [hu] at hsame
  cases there with
  | true => exact rmtree_ok (guarded_ok.mp h) (by rw [hx.loc_eq])
  | false =>
    obtain rfl : u = w' := (Prod.mk.inj h).2
    have hnot : w.fs.present (P ++ [x]) = false := Except.ok.inj hthere
    rw [hsame.fs]
    by_contra hne
    rw [(FileTree.present_iff _ _).mpr hne] at hnot
    cases hnot

/-- Neither of the two directories is left where `delete` returned. -/
theorem delete_ok (hp : d.path.At P) {x : Name} {w w' : World}
    (h : exec (d.delete x.val) w = (.ok (), w')) :
    w'.fs.kind (P ++ [x]) = none ∧ w'.fs.kind (P ++ [partialName x]) = none := by
  obtain ⟨_, u, hu, h⟩ := exec_bind_eq_ok h
  refine ⟨?_, delete_name_ok hp (x := partialName x) h⟩
  have hmove := d.delete_name_removes (partialName x).val u
  rw [(hp.join (partialName x)).loc_eq] at hmove
  change exec (d.delete_name (partialName x).val) u = _ at h
  rw [h] at hmove
  rw [hmove.fs_kind, delete_name_ok hp hu]
  rintro ⟨-, hpre⟩
  have := (List.prefix_append_right_inj P).mp hpre
  simp only [List.cons_prefix_cons, List.prefix_nil] at this
  exact partialName_ne x this.1

/-- A removal makes no generation complete. -/
theorem completeIds_removes {S : Set Spot} {w w' : World} (h : Removes S w w') :
    completeIds (records w'.fs P) ⊆ completeIds (records w.fs P) := by
  intro i hi
  obtain ⟨x, rfl, hplain, hdir, hmeta⟩ := mem_completeIds_records.mp hi
  obtain ⟨data, hdata⟩ := (FileTree.isFile_iff _ _).mp hmeta
  exact mem_completeIds_records.mpr ⟨x, rfl, hplain, h.kind_of_some hdir,
    (FileTree.isFile_iff _ _).mpr ⟨data, h.kind_of_some hdata⟩⟩

/-- Where `store` builds. -/
def building (P : Loc) (x : Name) : Set Spot := toward none P ∪ below none (P ++ [partialName x])

theorem mkdir_path_moves (hp : d.path.At P) (x : Name) :
    Moves (Confined (building P x)) (mkdir d.path) :=
  (mkdir_moves _).mono (fun _ _ h => h.mono (by
    rw [hp.chainSpots_eq]
    exact Set.subset_union_left))

theorem partial_dir_at (hp : d.path.At P) (x : Name) :
    (d.partial_dir x.val).At (P ++ [partialName x]) := hp.join (partialName x)

theorem clear_stale_moves (hp : d.path.At P) (x : Name) :
    Moves (Confined (building P x)) (d.clear_stale x.val) := by
  refine Moves.bind (ask_moves _ _) (fun _ => Moves.ite ?_ (Moves.pure _))
  refine (rmtree_moves _ _).mono (fun _ _ h => h.mono ?_)
  rw [(partial_dir_at hp x).loc_eq]
  exact Set.subset_union_right

theorem copytree_partial_moves (hp : d.path.At P) (x : Name) (src : Path) (ignore : Name → Bool) :
    Moves (Confined (building P x)) (copytree src (d.partial_dir x.val) ignore) := by
  refine (copytree_moves _ _ _).mono (fun _ _ h => h.mono ?_)
  rw [(partial_dir_at hp x).loc_eq, (partial_dir_at hp x).chainSpots_eq]
  rintro ⟨k, q⟩ (hq | ⟨hk, hq⟩)
  · exact .inr hq
  · rcases List.prefix_concat_iff.mp hq with rfl | hq
    · exact .inr ⟨hk, List.prefix_refl _⟩
    · exact .inl ⟨hk, hq⟩

theorem copy_meta_moves (hp : d.path.At P) (x : Name) (src : Path) :
    Moves (Confined (building P x)) (d.copy_meta src x.val) := by
  refine Moves.bind (ask_moves _ _) (fun _ => Moves.ite ?_ (Moves.pure _))
  refine (copy2_moves _ _).mono (fun _ _ h => h.mono ?_)
  rw [((partial_dir_at hp x).child META_FILENAME).loc_eq]
  exact (below_subset (List.prefix_append _ _)).trans Set.subset_union_right

theorem copy_meta_ok (hp : d.path.At P) {x : Name} {src : Path} {S : Loc} (hS : src.At S)
    {w w' : World} {data : String} (h : exec (d.copy_meta src x.val) w = (.ok (), w'))
    (hmeta : w.fs.kind (S ++ [META_FILENAME]) = some (.file data)) :
    w'.fs.kind (P ++ [partialName x] ++ [META_FILENAME]) = some (.file data) := by
  obtain ⟨has_meta, u, hu, h⟩ := exec_bind_eq_ok h
  have hS' := hS.child META_FILENAME
  have hsame := (is_file_reads hS').same w
  have hval := (is_file_reads hS').ok w has_meta (by rw [hu])
  rw [hu] at hsame
  obtain rfl : has_meta = true := by
    rw [← Except.ok.inj hval]
    exact (FileTree.isFile_iff _ _).mpr ⟨data, hmeta⟩
  obtain ⟨data', hd, hd'⟩ := copy2_ok h (hS'.find _)
  rw [hsame.fs, hmeta] at hd
  obtain rfl : data = data' := by simpa using hd
  rw [← hd', ((partial_dir_at hp x).child META_FILENAME).loc_eq]

/-! An id with a NUL names nothing: no call on its directories changes anything. -/

theorem rmtree_nul {p : Path} (h : p.nul = true) (ig : Bool) : Moves Same (rmtree p ig) := by
  intro w
  rw [rmtree, exec_primitive, Path.find_nul h]
  exact same_next w

theorem copytree_nul (src : Path) {dst : Path} (h : dst.nul = true) (ignore : Name → Bool) :
    Moves Same (copytree src dst ignore) := by
  intro w
  rw [copytree, exec_primitive, Path.find_nul h]
  cases src.find w.next.fs <;> exact same_next w

theorem copy2_nul (src : Path) {dst : Path} (h : dst.nul = true) : Moves Same (copy2 src dst) := by
  intro w
  rw [copy2, exec_primitive, Path.find_nul h]
  cases src.find w.next.fs <;> exact same_next w

theorem rename_nul {src : Path} (h : src.nul = true) (dst : Path) :
    Moves Same (rename src dst) := by
  intro w
  rw [rename, exec_primitive, Path.find_nul h]
  exact same_next w

theorem ask_same {α : Type} (q : Reply → World → α) : Moves Same (ask q) := fun w => by
  rw [exec_ask_state]
  exact same_next w

theorem store_nul (hp : d.path.At P) (src : Path) {backup_id : String}
    (h : hasNul backup_id = true) : Moves (Confined (toward none P)) (d.store src backup_id) := by
  have hpart : (d.partial_dir backup_id).nul = true := Path.join_nul _ (by
    rw [hasNul_append, h, Bool.true_or])
  refine Moves.bind (ask_moves _ _) (fun _ => Moves.ite (Moves.pure _) (guarded_moves _ ?_))
  refine Moves.bind ((mkdir_moves _).mono (fun _ _ hm => ?_)) (fun _ => (Moves.bind ?_ (fun _ =>
    Moves.bind (copytree_nul _ hpart _) (fun _ => Moves.bind ?_ (fun _ =>
      rename_nul hpart _)))).mono (fun _ _ hs => hs.confined _))
  · rwa [hp.chainSpots_eq] at hm
  · exact Moves.bind (ask_same _) (fun _ => Moves.ite (rmtree_nul hpart _) (Moves.pure _))
  · exact Moves.bind (ask_same _) (fun _ => Moves.ite
      (copy2_nul _ (show ((d.partial_dir backup_id).child META_FILENAME).nul = true from hpart))
      (Moves.pure _))

/-- The rename by which `store` commits the id `x`, at the world `u` it has come to. -/
structure Commits (P : Loc) (x : Name) (w u w' : World) : Prop where
  building : Confined (building P x) w u
  renamable : renamable u.fs (P ++ [partialName x]) (P ++ [x]) = true
  tree : ∃ s, w'.tree = (u.rename (P ++ [partialName x]) (P ++ [x]) s).tree
  commits : w'.commits = w.commits ++
    [⟨none, P ++ [x], fun l => u.fs.kind (P ++ [partialName x] ++ l)⟩]

/-- The manifest was copied last, from the source as it was. -/
def CopiesMeta (P : Loc) (x : Name) (src : Path) (w u : World) : Prop :=
  ∀ S data, src.At S → (none, S ++ [META_FILENAME]) ∉ building P x →
    w.fs.kind (S ++ [META_FILENAME]) = some (.file data) →
    u.fs.kind (P ++ [partialName x] ++ [META_FILENAME]) = some (.file data)

theorem transfer_cases (hp : d.path.At P) {x : Name} {src : Path} {w w' : World}
    {res : Except Exn Unit} (h : exec (d.transfer src x.val) w = (res, w')) :
    (Confined (building P x) w w' ∧ res ≠ .ok ()) ∨
      ∃ u, Commits P x w u w' ∧ CopiesMeta P x src w u := by
  rcases exec_bind_cases h with ⟨e, he, rfl⟩ | ⟨_, w₁, h₁, h⟩
  · exact .inl ⟨(mkdir_path_moves hp x).of_exec he, by simp⟩
  have c₁ := (mkdir_path_moves hp x).of_exec h₁
  rcases exec_bind_cases h with ⟨e, he, rfl⟩ | ⟨_, w₂, h₂, h⟩
  · exact .inl ⟨trans_of _ c₁ ((clear_stale_moves hp x).of_exec he), by simp⟩
  have c₂ := trans_of (Confined (building P x)) c₁ ((clear_stale_moves hp x).of_exec h₂)
  rcases exec_bind_cases h with ⟨e, he, rfl⟩ | ⟨_, w₃, h₃, h⟩
  · exact .inl ⟨trans_of _ c₂ ((copytree_partial_moves hp x _ _).of_exec he), by simp⟩
  have c₃ := trans_of (Confined (building P x)) c₂ ((copytree_partial_moves hp x _ _).of_exec h₃)
  rcases exec_bind_cases h with ⟨e, he, rfl⟩ | ⟨_, w₄, h₄, h⟩
  · exact .inl ⟨trans_of _ c₃ ((copy_meta_moves hp x _).of_exec he), by simp⟩
  have c₄ := trans_of (Confined (building P x)) c₃ ((copy_meta_moves hp x _).of_exec h₄)
  -- everything up to here was building; what is left is the rename
  rcases rename_cases h with ⟨ht, hc, hres⟩ | ⟨a, b, s, ha, hb, hr, ht, hc⟩
  · exact .inl ⟨trans_of _ c₄ (Same.confined ⟨ht, hc⟩ _), hres⟩
  obtain rfl : P ++ [partialName x] = a :=
    Option.some.inj (((partial_dir_at hp x).find _).symm.trans ha)
  obtain rfl : P ++ [x] = b := Option.some.inj (((hp.join x).find _).symm.trans hb)
  refine .inr ⟨w₄, ⟨c₄, hr, ⟨s, ht⟩, by rw [hc]; simp [World.rename, c₄.commits]⟩, ?_⟩
  intro S data hS hout hmeta
  exact copy_meta_ok hp hS h₄ (by rw [c₃.fs_kind hout, hmeta])

/-- A store returned at once because the generation was there, or it failed while building, or
it committed. -/
theorem store_cases (hp : d.path.At P) {x : Name} {src : Path} {w w' : World}
    {res : Except Exn Unit} (h : exec (d.store src x.val) w = (res, w')) :
    (Same w w' ∧ (res = .ok () → w.fs.isFile (P ++ [x] ++ [META_FILENAME]) = true)) ∨
      (w.fs.isFile (P ++ [x] ++ [META_FILENAME]) = false ∧
        ((Confined (building P x) w w' ∧ res ≠ .ok ()) ∨
          ∃ u, Commits P x w u w' ∧ CopiesMeta P x src w u)) := by
  have hreads := is_file_reads ((hp.join x).child META_FILENAME)
  have hsame := hreads.same w
  rcases exec_bind_cases h with ⟨e, he, rfl⟩ | ⟨complete, u, hu, h⟩
  · rw [he] at hsame
    exact .inl ⟨hsame, fun h => by cases h⟩
  have hval : w.fs.isFile (P ++ [x] ++ [META_FILENAME]) = complete :=
    Except.ok.inj (hreads.ok w complete (by rw [hu]))
  rw [hu] at hsame
  cases complete with
  | true =>
    obtain rfl : u = w' := (Prod.mk.inj h).2
    exact .inl ⟨hsame, fun _ => hval⟩
  | false =>
    refine .inr ⟨hval, ?_⟩
    obtain ⟨res', htrans, hres⟩ : ∃ res', exec (d.transfer src x.val) u = (res', w') ∧
        (res' ≠ .ok () → res ≠ .ok ()) := by
      have hstate := guarded_state s!"destination '{d.name}': store failed: "
        (d.transfer src x.val) u
      change exec (guarded _ (d.transfer src x.val)) u = (res, w') at h
      rw [h] at hstate
      refine ⟨_, Prod.ext rfl hstate.symm, fun hne hok => hne ?_⟩
      rw [hok] at h
      rw [guarded_ok.mp h]
    rcases transfer_cases hp htrans with ⟨hc, hne⟩ | ⟨v, hv, hcopy⟩
    · exact .inl ⟨trans_of _ (hsame.confined _) hc, hres hne⟩
    · refine .inr ⟨v, ⟨trans_of _ (hsame.confined _) hv.building, hv.renamable, hv.tree,
        by rw [hv.commits, hsame.commits]⟩, ?_⟩
      intro S data hS hout hmeta
      exact hcopy S data hS hout (by rw [hsame.fs, hmeta])

end LocalDestination

end MbKeeper
