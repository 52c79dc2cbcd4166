import MbKeeper.SshStore

/-!
# A stored generation as a copy of its source

Both backends leave the manifest out of the bulk copy, by its name, and send it
on its own afterwards. The name is left out in every directory, so a file of
that name below the top of the source is in no copy.
-/
namespace MbKeeper

/-- A backend that keeps its generations in the directory `P` of the host `h`, with which the
source at `S` has nothing in common. -/
inductive Keeps (P S : Loc) (x : Name) : Destination → Option String → Prop where
  | disk {d : LocalDestination} (hp : d.path.At P) (habove : ¬ S <+: P) :
      Keeps P S x d.toDestination none
  | ssh {d : SSHDestination} (ha : d.Addresses P x) : Keeps P S x d.toDestination (some d.host)

variable {P S : Loc} {x : Name} {src : Path} {w w' : World}

/-- The copy on this node, where nothing had the two names. -/
theorem LocalDestination.store_copies {d : LocalDestination} (hp : d.path.At P) (habove : ¬ S <+: P)
    (hsrc : SourceDir w.fs S src) (htree : ∀ l, w.fs.Rooted l) (hx : w.fs.kind (P ++ [x]) = none)
    (hpart : w.fs.kind (P ++ [partialName x]) = none)
    (h : exec (d.store src x.val) w = (.ok (), w')) (r : Loc) :
    w'.fs.kind (P ++ [x] ++ r) = copyOf w.fs S r := by
  have hout : ∀ y : Name, w.fs.kind (P ++ [y]) = none → ¬ P ++ [y] <+: S := by
    rintro y hy ⟨s, hs⟩
    have habsent := htree _ hy s
    rw [hs, hsrc.dir] at habsent
    cases habsent
  have hg : Generation w.next.fs P S x src :=
    ⟨hsrc.leads, habove, hout x hx, hout _ hpart, hsrc.dir, hsrc.manifest⟩
  rcases store_stages hp src x w with ⟨-, -, hfile, -⟩ | ⟨-, -, heq⟩
  · have hthere := FileTree.kind_ne_none_of_isFile (hfile (by rw [h]))
    exact absurd (htree _ hx [META_FILENAME]) hthere
  · rw [heq] at h
    rcases transfer_ends hp hg (htree _) (guarded_ok.mp h) with ⟨hne, -⟩ | ⟨-, -, hkind⟩
    · exact absurd rfl hne
    · rw [hkind, placed, relTo_append]
      rfl

/-- The copy on a remote host, where nothing had the two names. -/
theorem SSHDestination.store_copies {d : SSHDestination} (ha : d.Addresses P x)
    (hsrc : SourceDir w.fs S src) (htree : ∀ l, (w.tree (some d.host)).Rooted l)
    (hx : (w.tree (some d.host)).kind (P ++ [x]) = none)
    (hpart : (w.tree (some d.host)).kind (P ++ [partialName x]) = none)
    (h : exec (d.store src x.val) w = (.ok (), w')) (r : Loc) :
    (w'.tree (some d.host)).kind (P ++ [x] ++ r) = copyOf w.fs S r := by
  have hnone : ∀ l, (w.tree (some d.host)).kind (P ++ [partialName x] ++ l) = none := htree _ hpart
  have hnotdir :
      (w.tree (some d.host)).isDir (P ++ [partialName x] ++ [META_FILENAME]) = false := by
    rw [FileTree.isDir, hnone]
  rcases store_cases ha src h with ⟨-, hfile⟩ | ⟨v, hv, htransfer, -⟩
  · exact absurd (htree _ hx _) (FileTree.kind_ne_none_of_isFile (hfile rfl))
  obtain ⟨data, hdata⟩ := hsrc.manifest
  obtain ⟨u, hc, hmoved, hkind⟩ := transfer_ok ha hsrc.leads (by rw [hv.fs]; exact hdata) htransfer
  rw [hv.tree, hv.fs] at hkind
  rcases hmoved with ht | hn
  · rw [ht.kind_final, hkind, copyOf]
    by_cases hmeta : r = [META_FILENAME]
    · subst hmeta
      rw [received_meta, if_neg (ne_true_of_eq_false hnotdir), if_pos (.inl rfl), hdata]
    by_cases hmem : META_FILENAME ∈ r
    · rw [if_neg (by simp [hmeta, hmem]), received, if_neg, if_pos hmem, hnone]
      rw [metaTarget, if_neg (ne_true_of_eq_false hnotdir)]
      exact fun he => hmeta (List.append_cancel_left he)
    · rw [if_pos (.inr hmem), received_plain hmem, if_neg]
      rw [FileTree.isDir, hnone]
      simp
  · have htaken := (FileTree.isDir_iff _ _).mp hn.taken
    have hsame := hc.kind (some d.host) (P ++ [x] ++ [])
      (other_notMem_building (partialName_ne x).symm [])
    rw [List.append_nil, htaken, hv.tree, hx] at hsame
    cases hsame

theorem Keeps.store_copies {D : Destination} {h : Option String} (hD : Keeps P S x D h)
    (hsrc : SourceDir w.fs S src) (htree : ∀ l, (w.tree h).Rooted l)
    (hx : (w.tree h).kind (P ++ [x]) = none) (hpart : (w.tree h).kind (P ++ [partialName x]) = none)
    (hstore : exec (D.store src x.val) w = (.ok (), w')) (r : Loc) :
    (w'.tree h).kind (P ++ [x] ++ r) = copyOf w.fs S r := by
  cases hD with
  | disk hp habove => exact LocalDestination.store_copies hp habove hsrc htree hx hpart hstore r
  | ssh ha => exact SSHDestination.store_copies ha hsrc htree hx hpart hstore r

/-- A store that returned, at a destination where nothing had the two names, has left the files
of the source under the name of the generation, exactly if no file of the source below its top
has the name of the manifest or lies in a directory of that name. -/
theorem stored_copy_faithful_iff {D : Destination} {h : Option String} (hD : Keeps P S x D h)
    (hsrc : SourceDir w.fs S src) (htree : ∀ l, (w.tree h).Rooted l)
    (hx : (w.tree h).kind (P ++ [x]) = none) (hpart : (w.tree h).kind (P ++ [partialName x]) = none)
    (hstore : exec (D.store src x.val) w = (.ok (), w')) :
    (∀ r data, (w'.tree h).kind (P ++ [x] ++ r) = some (.file data) ↔
        w.fs.kind (S ++ r) = some (.file data)) ↔
      ∀ r, META_FILENAME ∈ r → r ≠ [META_FILENAME] → w.fs.isFile (S ++ r) = false := by
  have hcopy := hD.store_copies hsrc htree hx hpart hstore
  constructor
  · intro hfaithful r hmem hne
    by_contra hfile
    obtain ⟨data, hdata⟩ := (FileTree.isFile_iff _ _).mp (by simpa using hfile)
    have hlost := (hfaithful r data).mpr hdata
    rw [hcopy, copyOf, if_neg (by simp [hne, hmem])] at hlost
    cases hlost
  · intro hnested r data
    rw [hcopy, copyOf]
    by_cases hr : r = [META_FILENAME] ∨ META_FILENAME ∉ r
    · rw [if_pos hr]
    · rw [if_neg hr]
      rw [not_or, not_not] at hr
      refine iff_of_false (by simp) (fun hdata => ?_)
      have hfile := hnested r hr.2 hr.1
      rw [(FileTree.isFile_iff _ _).mpr ⟨data, hdata⟩] at hfile
      cases hfile

/-- A generation `/w/x` with a second `meta.json` one directory down. -/
def nestedTree : Fs :=
  ((smallTree.addGeneration [entry "w", entry "x"]).create [entry "w", entry "x", entry "db"]
    .dir 0).create [entry "w", entry "x", entry "db", META_FILENAME] (.file "rows") 0

/-- Neither backend copies it. -/
theorem nested_manifest_lost :
    nestedTree.kind [entry "w", entry "x", entry "db", META_FILENAME] = some (.file "rows") ∧
    (∃ w', exec (smallLocal.toDestination.store (Path.configured [] (PurePath.parse "/w/x")) "x")
        (smallWorld nestedTree) = (.ok (), w') ∧
      w'.fs.kind [entry "b", entry "x", entry "db", META_FILENAME] = none) ∧
    ∃ w', exec (smallRemote.toDestination.store
        (Path.configured [] (PurePath.parse "/w/x")) "x")
        (remoteWorld nestedTree smallTree) = (.ok (), w') ∧
      (w'.tree (some smallRemote.host)).kind
        [entry "b", entry "x", entry "db", META_FILENAME] = none := by
  have hlocal : (exec (smallLocal.toDestination.store (Path.configured [] (PurePath.parse "/w/x"))
      "x") (smallWorld nestedTree)).1 = .ok () := by decide +kernel
  have hremote : (exec (smallRemote.toDestination.store
      (Path.configured [] (PurePath.parse "/w/x")) "x")
      (remoteWorld nestedTree smallTree)).1 = .ok () := by decide +kernel
  refine ⟨by decide, ⟨_, exec_of_ok hlocal, ?_⟩, _, exec_of_ok hremote, ?_⟩
  all_goals decide +kernel

theorem stored_copy_faithful_iff_nested :
    ¬ ∀ r data, (exec (smallLocal.toDestination.store (Path.configured [] (PurePath.parse "/w/x"))
        "x") (smallWorld nestedTree)).2.fs.kind ([entry "b"] ++ [entry "x"] ++ r) =
          some (.file data) ↔
      nestedTree.kind ([entry "w", entry "x"] ++ r) = some (.file data) := by
  have hok : (exec (smallLocal.toDestination.store (Path.configured [] (PurePath.parse "/w/x"))
      "x") (smallWorld nestedTree)).1 = .ok () := by decide +kernel
  have hp : smallLocal.path.At [entry "b"] := ⟨⟨[], rfl, by decide⟩, rfl⟩
  have hsrc : SourceDir (smallWorld nestedTree).fs [entry "w", entry "x"]
      (Path.configured [] (PurePath.parse "/w/x")) :=
    ⟨⟨⟨[], rfl, by decide⟩, rfl⟩, by decide, "", by decide⟩
  have hiff := stored_copy_faithful_iff (x := entry "x") (.disk hp (by decide)) hsrc
    (FileTree.rooted_of_locs (by decide)) (by decide) (by decide) (exec_of_ok hok)
  intro hfaithful
  have hlost := hiff.mp hfaithful [entry "db", META_FILENAME] (by simp) (by simp)
  revert hlost
  decide

end MbKeeper
