import MbKeeper.Environment

/-!
# Changing the files of this node

The calls of `pathlib`, `os` and `shutil` that the program makes on its own
node's files. One reply answers the whole call; where a call of many steps
fails, the reply says which steps were done. Each call comes with the spots it
may touch and with what is true after it returned.
-/
namespace MbKeeper

def osError (message : String) (p : Path) : Exn := .os s!"{message}: '{p.str}'"

def enoent (p : Path) : Exn := osError "[Errno 2] No such file or directory" p

def eexist (p : Path) : Exn := osError "[Errno 17] File exists" p

def enotdir (p : Path) : Exn := osError "[Errno 20] Not a directory" p

/-- What a path that leads nowhere raises. -/
def lost (p : Path) : Exn := if p.nul then .value "embedded null byte" else enoent p

def blocked (t : Fs) (p : Path) : Bool := p.chain.any t.isFile

/-- `path.mkdir(parents=True, exist_ok=True)` -/
def mkdir (p : Path) : Io Unit := primitive fun r w =>
  if p.nul then (.error (lost p), w)
  else if blocked w.fs p then (.error (enotdir p), w)
  else match r.fault with
    | some e => (.error e, w.setTree none (w.fs.mkdirs (p.chain.take r.count) r.stamp))
    | none => (.ok (), w.setTree none (w.fs.mkdirs p.chain r.stamp))

/-- An error of `rmtree`, unless it is told to ignore errors. -/
def rmtreeFailed (ignore_errors : Bool) (e : Exn) : Except Exn Unit :=
  if ignore_errors ∧ e ≠ .crash then .ok () else .error e

/-- `shutil.rmtree(path, ignore_errors)`: the contents first, then the directory itself by
its path, which by then may lead nowhere. The root directory cannot be removed. -/
def rmtree (p : Path) (ignore_errors : Bool) : Io Unit := primitive fun r w =>
  match p.find w.fs with
  | none => (rmtreeFailed ignore_errors (r.fault.getD (lost p)), w)
  | some l =>
    if w.fs.isDir l then
      match r.fault with
      | some e => (rmtreeFailed ignore_errors e,
          w.setTree none
            (w.fs.unlinkAll (r.paths.filter (fun q => l <+: q ∧ q ≠ [])) r.stamp))
      | none =>
        let t := w.fs.clear l r.stamp
        if p.find t = some l ∧ l ≠ [] then (.ok (), w.setTree none (t.removeTree l r.stamp))
        else (rmtreeFailed ignore_errors (enoent p), w.setTree none t)
    else (rmtreeFailed ignore_errors (r.fault.getD (enotdir p)), w)

/-- `shutil.copytree(src, dst, ignore)`: the names that are ignored are ignored in every
directory, and a copy keeps its original's time of modification. -/
def copytree (src dst : Path) (ignore : Name → Bool) : Io Unit := primitive fun r w =>
  match src.find w.fs, dst.find w.fs with
  | some a, some b =>
    if !w.fs.isDir a then (.error (enoent src), w)
    else if w.fs.present b then (.error (eexist dst), w)
    else if blocked w.fs dst then (.error (enotdir dst), w)
    else
      let t := w.fs.mkdirs dst.chain r.stamp
      match r.fault with
      | some e => (.error e, if b ∈ r.paths then w.setTree none
          (t.copyTree a b (fun l => l ≠ [] ∧ l.all (!ignore ·) ∧
            l.inits.all (fun p => b ++ p ∈ r.paths)) (fun _ => r.stamp))
          else w)
      | none => (.ok (), w.setTree none (t.copyTree a b (fun l => l.all (!ignore ·)) id))
  | none, _ => (.error (lost src), w)
  | _, none => (.error (lost dst), w)

/-- `shutil.copy2(src, dst)` of a file. -/
def copy2 (src dst : Path) : Io Unit := primitive fun r w =>
  match src.find w.fs, dst.find w.fs with
  | some a, some b =>
    match w.fs.kind a with
    | some (.file d) =>
      if w.fs.isDir b ∨ !w.fs.isDir b.dropLast then (.error (enoent dst), w)
      else match r.fault with
        | some e => (.error e, if r.applied then w.setTree none (w.fs.write b d r.stamp) else w)
        | none => (.ok (), w.setTree none (w.fs.write b d r.stamp))
    | _ => (.error (enoent src), w)
  | none, _ => (.error (lost src), w)
  | _, none => (.error (lost dst), w)

/-- `rename(2)` lets a directory take the place of an empty one only. -/
def renamable (t : Fs) (a b : Loc) : Bool :=
  t.isDir a ∧ ¬ a <+: b ∧ t.isDir b.dropLast ∧ t.vacant b

theorem renamable_iff {t : Fs} {a b : Loc} : renamable t a b = true ↔
    t.kind a = some .dir ∧ ¬ a <+: b ∧ t.kind b.dropLast = some .dir ∧ t.vacant b = true := by
  simp [renamable]

def World.rename (w : World) (a b : Loc) (s : Instant) : World :=
  (w.setTree none (w.fs.move a b s)).commit ⟨none, b, fun l => w.fs.kind (a ++ l)⟩

/-- `src.rename(dst)` of a directory: all or nothing, also when the process ends in it. -/
def rename (src dst : Path) : Io Unit := primitive fun r w =>
  match src.find w.fs, dst.find w.fs with
  | some a, some b =>
    if renamable w.fs a b then
      match r.fault with
      | some .crash => (.error .crash, if r.applied then w.rename a b r.stamp else w)
      | some e => (.error e, w)
      | none => (.ok (), w.rename a b r.stamp)
    else (.error (r.fault.getD (.os "rename failed")), w)
  | none, _ => (.error (lost src), w)
  | _, none => (.error (lost dst), w)

/-- `path.write_text(text)`, or an append when `append` is set. -/
def write_text (p : Path) (text : String) (append : Bool) : Io Unit := primitive fun r w =>
  match p.find w.fs with
  | some l =>
    if w.fs.isDir l ∨ !w.fs.isDir l.dropLast then (.error (enoent p), w)
    else
      let old := match append, w.fs.kind l with
        | true, some (.file d) => d
        | _, _ => ""
      match r.fault with
      | some e => (.error e,
          if r.applied then w.setTree none (w.fs.write l (old ++ r.stdout) r.stamp) else w)
      | none => (.ok (), w.setTree none (w.fs.write l (old ++ text) r.stamp))
  | none => (.error (lost p), w)

/-- `path.unlink()` -/
def unlink_file (p : Path) : Io Unit := primitive fun r w =>
  match p.find w.fs with
  | some l =>
    if w.fs.isFile l then
      match r.fault with
      | some e => (.error e, w)
      | none => (.ok (), w.setTree none (w.fs.removeTree l r.stamp))
    else (.error (enoent p), w)
  | none => (.error (lost p), w)

/-- A process writes files and directories below `l`, each into a directory that is there. -/
def Fs.receive (t : Fs) (l : Loc) (writes : List (Loc × Kind String)) (s : Instant) : Fs :=
  writes.foldl (fun t x =>
    if x.1 ≠ [] ∧ t.isDir (l ++ x.1).dropLast then t.create (l ++ x.1) x.2 s else t) t

theorem Path.find_eq_loc {p : Path} {t : Fs} {l : Loc} (h : p.find t = some l) : l = p.loc := by
  simp only [Path.find] at h
  split_ifs at h
  exact FileTree.walk_eq_resolve h

theorem Path.At.loc_eq {p : Path} {l : Loc} (h : p.At l) : p.loc = l :=
  (Path.find_eq_loc (h.find FileTree.empty)).symm

/-- The directories `mkdir` may make. -/
def chainSpots (p : Path) : Set Spot := {x | x.1 = none ∧ x.2 ∈ p.chain}

theorem Path.At.chainSpots_eq {p : Path} {l : Loc} (h : p.At l) :
    chainSpots p = toward none l := by
  ext ⟨k, q⟩
  simp [chainSpots, h.mem_chain]

theorem mkdir_moves (p : Path) : Moves (Confined (chainSpots p)) (mkdir p) := by
  apply primitive_moves
  intro r w
  have hmk (ps : List Loc) (hps : ∀ q ∈ ps, q ∈ p.chain) :
      Confined (chainSpots p) w (w.setTree none (w.fs.mkdirs ps r.stamp)) :=
    Confined.setTree (fun q hq =>
      FileTree.kind_mkdirs_of_notMem _ _ (fun hmem => hq ⟨rfl, hps q hmem⟩))
  split_ifs
  · exact refl_of (Confined (chainSpots p)) w
  · exact refl_of (Confined (chainSpots p)) w
  · cases r.fault with
    | some e => exact hmk _ (fun q hq => List.mem_of_mem_take hq)
    | none => exact hmk _ (fun q hq => hq)

/-- A location outside a subtree that is not above its root is not the parent of any location
in it. -/
theorem ne_dropLast {l m q : Loc} (hlm : l <+: m) (hq : ¬ l <+: q)
    (hx : ∀ x, ¬ l <+: q ++ [x]) : q ≠ m.dropLast := by
  rintro rfl
  rcases List.eq_nil_or_concat m with rfl | ⟨m', x, rfl⟩
  · exact hq hlm
  · exact hx x (by simpa using hlm)

theorem rmtree_removes (p : Path) (ig : Bool) :
    Moves (Removes (below none p.loc)) (rmtree p ig) := by
  apply primitive_removes
  intro r w
  cases hfind : p.find w.fs with
  | none => exact refl_of (Removes (below none p.loc)) w
  | some l =>
    obtain rfl := Path.find_eq_loc hfind
    have hclear : Removes (below none p.loc) w (w.setTree none (w.fs.clear p.loc r.stamp)) := by
      refine Removes.setTree (fun q hq => ?_) (fun q => ?_) (fun q hq _ => ?_)
      · rw [FileTree.kind_clear, if_neg (fun h => hq ⟨rfl, h.1⟩)]
        rfl
      · rw [FileTree.kind_clear]
        split_ifs
        · exact .inr rfl
        · exact .inl rfl
      · exact FileTree.lookup_clear _ _ (fun h => hq ⟨rfl, h⟩)
    dsimp only
    by_cases hdir : w.fs.isDir p.loc
    · rw [if_pos hdir]
      cases r.fault with
      | some e =>
        have hls : ∀ m ∈ r.paths.filter (fun q => p.loc <+: q ∧ q ≠ []), p.loc <+: m := fun m hm =>
          (of_decide_eq_true (List.mem_filter.mp hm).2).1
        refine Removes.setTree (fun q hq => ?_) (fun q => FileTree.kind_unlinkAll_or _ _ _ _)
          (fun q hq hx => ?_)
        · exact FileTree.kind_unlinkAll_of_outside _ _
            (fun m hm hmq => hq ⟨rfl, (hls m hm).trans hmq⟩)
        · exact FileTree.lookup_unlinkAll _ _ (fun m hm =>
            ⟨fun hmq => hq ⟨rfl, (hls m hm).trans hmq⟩,
              ne_dropLast (hls m hm) (fun h => hq ⟨rfl, h⟩) (fun x h => hx x ⟨rfl, h⟩)⟩)
      | none =>
        dsimp only
        split_ifs
        · refine Removes.setTree (fun q hq => ?_) (fun q => ?_) (fun q hq hx => ?_)
          · rw [FileTree.kind_removeTree, if_neg (fun h => hq ⟨rfl, h⟩), FileTree.kind_clear,
              if_neg (fun h => hq ⟨rfl, h.1⟩)]
            rfl
          · rw [FileTree.kind_removeTree, FileTree.kind_clear]
            split_ifs
            · exact .inr rfl
            · exact .inr rfl
            · exact .inl rfl
          · have hnot : ¬ p.loc <+: q := fun h => hq ⟨rfl, h⟩
            rw [FileTree.lookup_removeTree _ _ hnot
              (ne_dropLast (List.prefix_refl _) hnot (fun x h => hx x ⟨rfl, h⟩))]
            exact FileTree.lookup_clear _ _ hnot
        · exact hclear
    · rw [if_neg hdir]
      exact refl_of (Removes (below none p.loc)) w

theorem unlink_file_removes (p : Path) : Moves (Removes (below none p.loc)) (unlink_file p) := by
  apply primitive_removes
  intro r w
  cases hfind : p.find w.fs with
  | none => exact refl_of (Removes (below none p.loc)) w
  | some l =>
    obtain rfl := Path.find_eq_loc hfind
    dsimp only
    by_cases hfile : w.fs.isFile p.loc
    · rw [if_pos hfile]
      cases r.fault with
      | some e => exact refl_of (Removes (below none p.loc)) w
      | none =>
        refine Removes.setTree (fun q hq => ?_) (fun q => ?_) (fun q hq hx => ?_)
        · rw [FileTree.kind_removeTree, if_neg (fun h => hq ⟨rfl, h⟩)]
          rfl
        · rw [FileTree.kind_removeTree]
          split_ifs
          · exact .inr rfl
          · exact .inl rfl
        · have hnot : ¬ p.loc <+: q := fun h => hq ⟨rfl, h⟩
          exact FileTree.lookup_removeTree _ _ hnot
            (ne_dropLast (List.prefix_refl _) hnot (fun x h => hx x ⟨rfl, h⟩))
    · rw [if_neg hfile]
      exact refl_of (Removes (below none p.loc)) w

/-- What is not a directory is not removed. -/
theorem rmtree_of_not_dir {p : Path} {ig : Bool} {w : World} (h : w.fs.isDir p.loc = false) :
    Same w (exec (rmtree p ig) w).2 := by
  rw [rmtree, exec_primitive, World.fs_next]
  cases hfind : p.find w.fs with
  | none => exact same_next w
  | some l =>
    obtain rfl := Path.find_eq_loc hfind
    simp only [h, Bool.false_eq_true, if_false]
    exact same_next w

/-- The root directory stays. -/
theorem rmtree_root (p : Path) (ig : Bool) (w : World) :
    (exec (rmtree p ig) w).2.fs.kind [] = w.fs.kind [] := by
  rw [rmtree, exec_primitive, World.fs_next]
  cases hfind : p.find w.fs with
  | none => rfl
  | some l =>
    have hclear : (w.fs.clear l (w.tape 0).stamp).kind [] = w.fs.kind [] := by
      rw [FileTree.kind_clear, if_neg (fun h => h.2 (List.prefix_nil.mp h.1).symm)]
    dsimp only
    by_cases hdir : w.fs.isDir l = true
    · rw [if_pos hdir]
      cases (w.tape 0).fault with
      | some e =>
        dsimp only
        rw [World.fs_setTree_none, FileTree.kind_unlinkAll_of_outside]
        intro m hm hpre
        have hne := (of_decide_eq_true (List.mem_filter.mp hm).2).2
        exact hne (List.prefix_nil.mp hpre)
      | none =>
        dsimp only
        split_ifs with hl
        · rw [World.fs_setTree_none, FileTree.kind_removeTree,
            if_neg (fun h => hl.2 (List.prefix_nil.mp h)), hclear]
        · rw [World.fs_setTree_none, hclear]
    · rw [if_neg hdir]
      rfl

theorem rmtree_moves (p : Path) (ig : Bool) :
    Moves (Confined (below none p.loc)) (rmtree p ig) :=
  (rmtree_removes p ig).mono (fun _ _ h => h.toConfined)

/-- Nothing is left where `rmtree` returned. -/
theorem rmtree_ok {p : Path} {w w' : World} (h : exec (rmtree p false) w = (.ok (), w')) {q : Loc}
    (hq : p.loc <+: q) : w'.fs.kind q = none := by
  rw [rmtree, exec_primitive, World.fs_next] at h
  cases hfind : p.find w.fs with
  | none => simp [hfind, rmtreeFailed] at h
  | some l =>
    obtain rfl := Path.find_eq_loc hfind
    simp only [hfind] at h
    by_cases hdir : w.fs.isDir p.loc
    · rw [if_pos hdir] at h
      cases hf : (w.tape 0).fault with
      | some e => simp [hf, rmtreeFailed] at h
      | none =>
        simp only [hf] at h
        split_ifs at h
        · rw [← (Prod.mk.inj h).2, World.fs_setTree_none, FileTree.kind_removeTree, if_pos hq]
        · simp [rmtreeFailed] at h
    · rw [if_neg hdir] at h
      simp [rmtreeFailed] at h

theorem copytree_moves (src dst : Path) (ignore : Name → Bool) :
    Moves (Confined (below none dst.loc ∪ chainSpots dst)) (copytree src dst ignore) := by
  apply primitive_moves
  intro r w
  cases ha : src.find w.fs with
  | none => exact refl_of (Confined _) w
  | some a =>
    cases hb : dst.find w.fs with
    | none => exact refl_of (Confined _) w
    | some b =>
      obtain rfl := Path.find_eq_loc hb
      have hcopy (sel : Loc → Bool) (time : ℤ → ℤ) :
          Confined (below none dst.loc ∪ chainSpots dst) w
          (w.setTree none ((w.fs.mkdirs dst.chain r.stamp).copyTree a dst.loc sel time)) := by
        refine Confined.setTree (fun q hq => ?_)
        rw [FileTree.kind_copyTree_of_outside _ _ _ (fun h => hq (.inl ⟨rfl, h⟩)),
          FileTree.kind_mkdirs_of_notMem _ _ (fun h => hq (.inr ⟨rfl, h⟩))]
        rfl
      dsimp only
      cases r.fault <;> split_ifs
      all_goals first | exact hcopy _ _ | exact refl_of (Confined _) w

theorem copy2_moves (src dst : Path) :
    Moves (Confined (below none dst.loc)) (copy2 src dst) := by
  apply primitive_moves
  intro r w
  cases ha : src.find w.fs with
  | none => exact refl_of (Confined _) w
  | some a =>
    cases hb : dst.find w.fs with
    | none => exact refl_of (Confined _) w
    | some b =>
      obtain rfl := Path.find_eq_loc hb
      have hwrite (d : String) : Confined (below none dst.loc) w
          (w.setTree none (w.fs.write dst.loc d r.stamp)) := by
        refine Confined.setTree (fun q hq => ?_)
        rw [FileTree.kind_write, if_neg (by rintro rfl; exact hq ⟨rfl, List.prefix_refl _⟩)]
        rfl
      dsimp only
      split
      · cases r.fault <;> split_ifs
        all_goals first | exact hwrite _ | exact refl_of (Confined _) w
      · exact refl_of (Confined _) w

/-- The copy of a file is the file. -/
theorem copy2_ok {src dst : Path} {a : Loc} {w w' : World}
    (h : exec (copy2 src dst) w = (.ok (), w')) (ha : src.find w.fs = some a) :
    ∃ d, w.fs.kind a = some (.file d) ∧ w'.fs.kind dst.loc = some (.file d) := by
  rw [copy2, exec_primitive, World.fs_next] at h
  simp only [ha] at h
  cases hb : dst.find w.fs with
  | none => simp [hb] at h
  | some b =>
    obtain rfl := Path.find_eq_loc hb
    simp only [hb] at h
    split at h
    · next d hd =>
      cases hf : (w.tape 0).fault with
      | some e =>
        simp only [hf] at h
        split_ifs at h <;> simp at h
      | none =>
        simp only [hf] at h
        split_ifs at h
        · simp at h
        · refine ⟨d, hd, ?_⟩
          rw [← (Prod.mk.inj h).2, World.fs_setTree_none, FileTree.kind_write, if_pos rfl]
    · simp at h

theorem write_text_moves (p : Path) (text : String) (append : Bool) :
    Moves (Confined (below none p.loc)) (write_text p text append) := by
  apply primitive_moves
  intro r w
  cases hfind : p.find w.fs with
  | none => exact refl_of (Confined _) w
  | some l =>
    obtain rfl := Path.find_eq_loc hfind
    have hwrite (d : String) : Confined (below none p.loc) w
        (w.setTree none (w.fs.write p.loc d r.stamp)) := by
      refine Confined.setTree (fun q hq => ?_)
      rw [FileTree.kind_write, if_neg (by rintro rfl; exact hq ⟨rfl, List.prefix_refl _⟩)]
      rfl
    dsimp only
    cases r.fault <;> split_ifs
    all_goals first | exact hwrite _ | exact refl_of (Confined _) w

/-- A file is written where no directory is, and makes none. -/
theorem write_text_not_dir (p : Path) (text : String) (append : Bool) {w : World}
    (h : w.fs.isDir p.loc = false) :
    (exec (write_text p text append) w).2.fs.isDir p.loc = false := by
  have hwrite (data : String) : (w.fs.write p.loc data (w.tape 0).stamp).isDir p.loc = false := by
    rw [FileTree.isDir, FileTree.kind_write, if_pos rfl]
  rw [write_text, exec_primitive, World.fs_next]
  cases hfind : p.find w.fs with
  | none => exact h
  | some l =>
    obtain rfl := Path.find_eq_loc hfind
    dsimp only
    by_cases hplace : w.fs.isDir p.loc ∨ !w.fs.isDir p.loc.dropLast
    · rw [if_pos hplace]
      exact h
    · rw [if_neg hplace]
      cases (w.tape 0).fault with
      | none => exact hwrite _
      | some e =>
        cases (w.tape 0).applied with
        | false => exact h
        | true => exact hwrite _

/-- A file holds the text that was written to it. -/
theorem write_text_ok {p : Path} {text : String} {w w' : World}
    (h : exec (write_text p text false) w = (.ok (), w')) :
    w'.fs.kind p.loc = some (.file text) := by
  rw [write_text, exec_primitive, World.fs_next] at h
  cases hfind : p.find w.fs with
  | none => simp [hfind] at h
  | some l =>
    obtain rfl := Path.find_eq_loc hfind
    simp only [hfind] at h
    by_cases hdir : w.fs.isDir p.loc ∨ !w.fs.isDir p.loc.dropLast
    · rw [if_pos hdir] at h
      cases h
    · rw [if_neg hdir] at h
      cases hf : (w.tape 0).fault with
      | some e => simp [hf] at h
      | none =>
        simp only [hf] at h
        rw [← (Prod.mk.inj h).2, World.fs_setTree_none, FileTree.kind_write, if_pos rfl,
          String.empty_append]

/-- A rename did nothing, or the directory at `a` has become the one at `b`, where there was
nothing or an empty directory. -/
theorem rename_cases {src dst : Path} {w w' : World} {res : Except Exn Unit}
    (h : exec (rename src dst) w = (res, w')) :
    (w'.tree = w.tree ∧ w'.commits = w.commits ∧ res ≠ .ok ()) ∨
      (∃ a b s, src.find w.fs = some a ∧ dst.find w.fs = some b ∧ renamable w.fs a b = true ∧
        w'.tree = (w.rename a b s).tree ∧ w'.commits = (w.rename a b s).commits) := by
  rw [rename, exec_primitive, World.fs_next] at h
  cases ha : src.find w.fs with
  | none =>
    simp only [ha, Prod.mk.injEq] at h
    exact .inl ⟨by rw [← h.2]; rfl, by rw [← h.2]; rfl, by rw [← h.1]; simp⟩
  | some a =>
    cases hb : dst.find w.fs with
    | none =>
      simp only [ha, hb, Prod.mk.injEq] at h
      exact .inl ⟨by rw [← h.2]; rfl, by rw [← h.2]; rfl, by rw [← h.1]; simp⟩
    | some b =>
      simp only [ha, hb] at h
      by_cases hr : renamable w.fs a b = true
      · rw [if_pos hr] at h
        split at h
        · obtain ⟨hres, hw⟩ := Prod.mk.inj h
          split_ifs at hw
          · exact .inr ⟨a, b, _, rfl, rfl, hr, by rw [← hw]; rfl, by rw [← hw]; rfl⟩
          · exact .inl ⟨by rw [← hw]; rfl, by rw [← hw]; rfl, by rw [← hres]; simp⟩
        · obtain ⟨hres, hw⟩ := Prod.mk.inj h
          exact .inl ⟨by rw [← hw]; rfl, by rw [← hw]; rfl, by rw [← hres]; simp⟩
        · obtain ⟨-, hw⟩ := Prod.mk.inj h
          exact .inr ⟨a, b, _, rfl, rfl, hr, by rw [← hw]; rfl, by rw [← hw]; rfl⟩
      · rw [if_neg hr] at h
        obtain ⟨hres, hw⟩ := Prod.mk.inj h
        exact .inl ⟨by rw [← hw]; rfl, by rw [← hw]; rfl, by rw [← hres]; simp⟩

theorem kind_receive (t : Fs) (l : Loc) (writes : List (Loc × Kind String)) (s : Instant) {q : Loc}
    (hq : ¬ l <+: q) : (t.receive l writes s).kind q = t.kind q := by
  induction writes generalizing t with
  | nil => rfl
  | cons x writes ih =>
    rw [Fs.receive, List.foldl_cons, ← Fs.receive, ih]
    split_ifs
    · rw [FileTree.kind_create, if_neg]
      rintro rfl
      exact hq (List.prefix_append _ _)
    · rfl

end MbKeeper
