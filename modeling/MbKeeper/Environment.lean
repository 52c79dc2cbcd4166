import MbKeeper.Programs
import MbKeeper.Calendar
import MbKeeper.Paths
import Mathlib.Data.Finset.Card
import Mathlib.Logic.Function.Basic
import Mathlib.Order.Defs.Unbundled

/-!
# The environment of the program

A world holds the file tree of this node and of every remote host, and a tape
of replies. Each call into the operating system, and each process started, uses
up one reply, which says whether the call fails, how far a call of many steps
got before it failed, what time it was, and what a process printed. A theorem
about every tape is therefore a theorem about every way the environment can
behave. `commits` records the renames of directories; no modelled function
reads it.
-/
namespace MbKeeper

/-- The exceptions the program meets, with their texts. `crash` is the end of the
process, which no handler sees. -/
inductive Exn where
  | config (message : String)
  | lock (message : String)
  | precondition (message : String)
  | backup (message : String)
  | destination (message : String)
  | os (message : String)
  | subprocess (message : String)
  | value (message : String)
  | unicode (message : String)
  | overflow (message : String)
  | type (message : String)
  | index (message : String)
  | key (message : String)
  | assertion
  | crash
  deriving DecidableEq, Repr

/-- `str(exc)` -/
def Exn.str : Exn → String
  | .config m | .lock m | .precondition m | .backup m | .destination m | .os m | .subprocess m
  | .value m | .unicode m | .overflow m | .type m | .index m | .key m => m
  | .assertion | .crash => ""

/-- How the environment answers one call. -/
structure Reply where
  /-- What the call raises. -/
  fault : Option Exn
  /-- A call that fails has taken effect before it failed. -/
  applied : Bool
  /-- The entries a recursive call got through before it failed. -/
  paths : List Loc
  /-- How many directories of a chain were made before the call failed. -/
  count : ℕ
  /-- The time of the call, in microseconds since the Unix epoch. -/
  stamp : Instant
  status : ℤ
  stdout : String
  stderr : String
  /-- The process ran into its timeout. -/
  timedOut : Bool
  /-- What a backup process wrote below its target directory. -/
  writes : List (Loc × Kind String)
  /-- What a remote shell makes of a command that it does not take literally. -/
  wild : Fs → Fs

/-- A call that succeeds at time `t`. -/
def Reply.good (t : Instant) : Reply := ⟨none, false, [], 0, t, 0, "", "", false, [], id⟩

/-- A directory took its final name with this content. -/
structure Commit where
  host : Option String
  loc : Loc
  content : Loc → Option (Kind String)

structure World where
  /-- The tree of this node, `none`, and of each remote host. -/
  tree : Option String → Fs
  tape : ℕ → Reply
  commits : List Commit

abbrev Io := Prog World Exn

namespace World

def fs (w : World) : Fs := w.tree none

def next (w : World) : World := { w with tape := fun n => w.tape (n + 1) }

def setTree (w : World) (h : Option String) (t : Fs) : World :=
  { w with tree := Function.update w.tree h t }

def commit (w : World) (c : Commit) : World := { w with commits := w.commits ++ [c] }

@[simp] theorem tree_next (w : World) : w.next.tree = w.tree := rfl

@[simp] theorem fs_next (w : World) : w.next.fs = w.fs := rfl

@[simp] theorem commits_next (w : World) : w.next.commits = w.commits := rfl

@[simp] theorem tree_setTree_self (w : World) (h : Option String) (t : Fs) :
    (w.setTree h t).tree h = t := by simp [setTree]

theorem tree_setTree_ne (w : World) {h h' : Option String} (t : Fs) (hne : h' ≠ h) :
    (w.setTree h t).tree h' = w.tree h' := by simp [setTree, hne]

@[simp] theorem fs_setTree_none (w : World) (t : Fs) : (w.setTree none t).fs = t := by simp [fs]

@[simp] theorem commits_setTree (w : World) (h : Option String) (t : Fs) :
    (w.setTree h t).commits = w.commits := rfl

@[simp] theorem tree_commit (w : World) (c : Commit) : (w.commit c).tree = w.tree := rfl

@[simp] theorem fs_commit (w : World) (c : Commit) : (w.commit c).fs = w.fs := rfl

@[simp] theorem commits_commit (w : World) (c : Commit) :
    (w.commit c).commits = w.commits ++ [c] := rfl

end World

/-- The names committed in the directory `P` of the host `h`, in the order of the commits. -/
def committed (h : Option String) (P : Loc) (w : World) : List Name :=
  w.commits.filterMap (fun c => if c.host = h then FileTree.childName P c.loc else none)

def committedIds (h : Option String) (P : Loc) (w : World) : Finset String :=
  ((committed h P w).map (·.val)).toFinset

theorem mem_committedIds {h : Option String} {P : Loc} {w : World} {x : Name} :
    x.val ∈ committedIds h P w ↔ x ∈ committed h P w := by
  rw [committedIds, List.mem_toFinset, List.mem_map]
  exact ⟨fun ⟨y, hy, hxy⟩ => Subtype.ext hxy ▸ hy, fun hx => ⟨x, hx, rfl⟩⟩

theorem committed_congr {h : Option String} {P : Loc} {w w' : World} (hc : w'.commits = w.commits) :
    committed h P w' = committed h P w := by rw [committed, hc, committed]

/-- A commit in `P` adds its name. -/
theorem committed_append {h : Option String} {P : Loc} {w w' : World} {x : Name}
    {content : Loc → Option (Kind String)}
    (hc : w'.commits = w.commits ++ [⟨h, P ++ [x], content⟩]) :
    committed h P w' = committed h P w ++ [x] := by
  simp [committed, hc, FileTree.childName]

/-- A location of one of the trees. -/
abbrev Spot := Option String × Loc

def below (h : Option String) (l : Loc) : Set Spot := {x | x.1 = h ∧ l <+: x.2}

def toward (h : Option String) (l : Loc) : Set Spot := {x | x.1 = h ∧ x.2 <+: l}

@[simp] theorem mem_below {h h' : Option String} {l q : Loc} :
    (h', q) ∈ below h l ↔ h' = h ∧ l <+: q := Iff.rfl

@[simp] theorem mem_toward {h h' : Option String} {l q : Loc} :
    (h', q) ∈ toward h l ↔ h' = h ∧ q <+: l := Iff.rfl

theorem below_subset {h : Option String} {l m : Loc} (hlm : l <+: m) : below h m ⊆ below h l :=
  fun _ hx => ⟨hx.1, hlm.trans hx.2⟩

/-- Nothing outside `S` changed, and nothing was committed. -/
structure Confined (S : Set Spot) (w w' : World) : Prop where
  kind : ∀ h q, (h, q) ∉ S → (w'.tree h).kind q = (w.tree h).kind q
  commits : w'.commits = w.commits

namespace Confined

variable {S S' : Set Spot} {w w' w'' : World}

instance : Std.Refl (Confined S) := ⟨fun _ => ⟨fun _ _ _ => rfl, rfl⟩⟩

instance : IsTrans World (Confined S) := ⟨fun _ _ _ h h' =>
  ⟨fun k q hq => (h'.kind k q hq).trans (h.kind k q hq), h'.commits.trans h.commits⟩⟩

theorem mono (h : Confined S w w') (hs : S ⊆ S') : Confined S' w w' :=
  ⟨fun k q hq => h.kind k q (fun hS => hq (hs hS)), h.commits⟩

theorem of_next (h : Confined S w.next w') : Confined S w w' := ⟨h.kind, h.commits⟩

theorem setTree {h : Option String} {t : Fs}
    (ht : ∀ q, (h, q) ∉ S → t.kind q = (w.tree h).kind q) : Confined S w (w.setTree h t) := by
  refine ⟨fun k q hq => ?_, rfl⟩
  by_cases hk : k = h
  · subst hk
    rw [World.tree_setTree_self, ht q hq]
  · rw [World.tree_setTree_ne _ _ hk]

theorem fs_kind (h : Confined S w w') {q : Loc} (hq : (none, q) ∉ S) :
    w'.fs.kind q = w.fs.kind q := h.kind none q hq

end Confined

/-- Something of `S` may be gone; everything else is as it was, except that a directory that
lost an entry has a new time. -/
structure Removes (S : Set Spot) (w w' : World) : Prop extends Confined S w w' where
  less : ∀ h q, (w'.tree h).kind q = (w.tree h).kind q ∨ (w'.tree h).kind q = none
  lookup : ∀ h q, (h, q) ∉ S → (∀ x, (h, q ++ [x]) ∉ S) →
    (w'.tree h).lookup q = (w.tree h).lookup q

namespace Removes

variable {S S' : Set Spot} {w w' w'' : World}

instance : Std.Refl (Removes S) := ⟨fun w =>
  ⟨refl_of (Confined S) w, fun _ _ => .inl rfl, fun _ _ _ _ => rfl⟩⟩

instance : IsTrans World (Removes S) := ⟨fun _ _ _ h h' =>
  ⟨trans_of (Confined S) h.toConfined h'.toConfined, fun k q => by
      rcases h'.less k q with h' | h'
      · rw [h']
        exact h.less k q
      · exact .inr h',
    fun k q hq hx => (h'.lookup k q hq hx).trans (h.lookup k q hq hx)⟩⟩

theorem mono (h : Removes S w w') (hs : S ⊆ S') : Removes S' w w' :=
  ⟨h.toConfined.mono hs, h.less,
    fun k q hq hx => h.lookup k q (fun hS => hq (hs hS)) (fun x hS => hx x (hs hS))⟩

theorem of_next (h : Removes S w.next w') : Removes S w w' :=
  ⟨h.toConfined.of_next, h.less, h.lookup⟩

theorem setTree {h : Option String} {t : Fs}
    (hkind : ∀ q, (h, q) ∉ S → t.kind q = (w.tree h).kind q)
    (hless : ∀ q, t.kind q = (w.tree h).kind q ∨ t.kind q = none)
    (hlookup : ∀ q, (h, q) ∉ S → (∀ x, (h, q ++ [x]) ∉ S) → t.lookup q = (w.tree h).lookup q) :
    Removes S w (w.setTree h t) := by
  refine ⟨Confined.setTree hkind, fun k q => ?_, fun k q hq hx => ?_⟩
  · by_cases hk : k = h
    · subst hk
      rw [World.tree_setTree_self]
      exact hless q
    · rw [World.tree_setTree_ne _ _ hk]
      exact .inl rfl
  · by_cases hk : k = h
    · subst hk
      rw [World.tree_setTree_self, hlookup q hq hx]
    · rw [World.tree_setTree_ne _ _ hk]

/-- What is gone stays gone. -/
theorem none_of_none (h : Removes S w w') {k : Option String} {q : Loc}
    (hq : (w.tree k).kind q = none) : (w'.tree k).kind q = none :=
  (h.less k q).elim (fun he => he.trans hq) id

theorem ne_none (h : Removes S w w') {k : Option String} {q : Loc}
    (hq : (w'.tree k).kind q ≠ none) : (w.tree k).kind q ≠ none :=
  fun hn => hq (h.none_of_none hn)

/-- What is there was there. -/
theorem kind_of_some (h : Removes S w w') {k : Option String} {q : Loc} {v : Kind String}
    (hq : (w'.tree k).kind q = some v) : (w.tree k).kind q = some v := by
  rcases h.less k q with he | hn
  · exact he.symm.trans hq
  · cases hn.symm.trans hq

theorem isDir_eq_false (h : Removes S w w') {k : Option String} {q : Loc}
    (hq : (w.tree k).isDir q = false) : (w'.tree k).isDir q = false := by
  by_contra hdir
  have hkind := h.kind_of_some ((FileTree.isDir_iff _ _).mp (eq_true_of_ne_false hdir))
  rw [(FileTree.isDir_iff _ _).mpr hkind] at hq
  cases hq

theorem isFile_eq_false (h : Removes S w w') {k : Option String} {q : Loc}
    (hq : (w.tree k).isFile q = false) : (w'.tree k).isFile q = false := by
  by_contra hfile
  obtain ⟨data, hdata⟩ := (FileTree.isFile_iff _ _).mp (eq_true_of_ne_false hfile)
  rw [(FileTree.isFile_iff _ _).mpr ⟨data, h.kind_of_some hdata⟩] at hq
  cases hq

end Removes

variable {α : Type}

/-- One call into the environment uses up one reply. -/
def primitive (f : Reply → World → Except Exn α × World) : Io α :=
  ExceptT.mk (fun w => f (w.tape 0) w.next)

theorem exec_primitive (f : Reply → World → Except Exn α × World) (w : World) :
    exec (primitive f) w = f (w.tape 0) w.next := rfl

theorem primitive_moves {S : Set Spot} {f : Reply → World → Except Exn α × World}
    (h : ∀ r w, Confined S w (f r w).2) : Moves (Confined S) (primitive f) :=
  fun w => (h (w.tape 0) w.next).of_next

theorem primitive_removes {S : Set Spot} {f : Reply → World → Except Exn α × World}
    (h : ∀ r w, Removes S w (f r w).2) : Moves (Removes S) (primitive f) :=
  fun w => (h (w.tape 0) w.next).of_next

/-- A call that only looks. -/
def ask (q : Reply → World → α) : Io α := primitive fun r w =>
  match r.fault with
  | some e => (.error e, w)
  | none => (.ok (q r w), w)

theorem exec_ask (q : Reply → World → α) (w : World) : exec (ask q) w =
    match (w.tape 0).fault with
    | some e => (.error e, w.next)
    | none => (.ok (q (w.tape 0) w.next), w.next) := by
  rw [ask, exec_primitive]

theorem exec_ask_state (q : Reply → World → α) (w : World) : (exec (ask q) w).2 = w.next := by
  rw [exec_ask]
  cases (w.tape 0).fault <;> rfl

theorem exec_ask_ok {q : Reply → World → α} {w w' : World} {a : α}
    (h : exec (ask q) w = (.ok a, w')) : a = q (w.tape 0) w.next ∧ w' = w.next := by
  rw [exec_ask] at h
  cases hf : (w.tape 0).fault with
  | some e => simp [hf] at h
  | none =>
    simp only [hf, Prod.mk.injEq, Except.ok.injEq] at h
    exact ⟨h.1.symm, h.2.symm⟩

theorem ask_moves (S : Set Spot) (q : Reply → World → α) : Moves (Confined S) (ask q) :=
  fun w => by rw [exec_ask_state]; exact (refl_of (Confined S) w.next).of_next

/-- The trees and the commits are as they were. -/
structure Same (w w' : World) : Prop where
  tree : w'.tree = w.tree
  commits : w'.commits = w.commits

instance : Std.Refl Same := ⟨fun _ => ⟨rfl, rfl⟩⟩

instance : IsTrans World Same :=
  ⟨fun _ _ _ h h' => ⟨h'.tree.trans h.tree, h'.commits.trans h.commits⟩⟩

theorem Same.confined {w w' : World} (h : Same w w') (S : Set Spot) : Confined S w w' :=
  ⟨fun k q _ => by rw [h.tree], h.commits⟩

theorem Same.removes {w w' : World} (h : Same w w') (S : Set Spot) : Removes S w w' :=
  ⟨h.confined S, fun k q => .inl (by rw [h.tree]), fun k q _ _ => by rw [h.tree]⟩

theorem Same.fs {w w' : World} (h : Same w w') : w'.fs = w.fs := congrFun h.tree none

theorem same_next (w : World) : Same w w.next := ⟨rfl, rfl⟩

/-- No call fails. -/
def Calm (w : World) : Prop := ∀ n, (w.tape n).fault = none

theorem Calm.next {w : World} (h : Calm w) : Calm w.next := fun n => h (n + 1)

/-- The program changes nothing; what it returns is `v` of the trees, and unless a call
fails it does end as `v` says. -/
structure Reads (m : Io α) (v : (Option String → Fs) → Except Exn α) : Prop where
  same : ∀ w, Same w (exec m w).2
  ok : ∀ w a, (exec m w).1 = .ok a → v w.tree = .ok a
  calm : ∀ w, Calm w → (exec m w).1 = v w.tree ∧ Calm (exec m w).2

namespace Reads

variable {β : Type} {m : Io α} {v : (Option String → Fs) → Except Exn α}

theorem of_eq {v' : (Option String → Fs) → Except Exn α} (h : Reads m v) (hv : ∀ t, v t = v' t) :
    Reads m v' := by
  obtain rfl : v = v' := funext hv
  exact h

theorem pure (a : α) : Reads (pure a) (fun _ => .ok a) :=
  ⟨fun w => refl_of Same w, fun _ _ h => h, fun _ h => ⟨rfl, h⟩⟩

theorem throw (e : Exn) : Reads (throw e : Io α) (fun _ => .error e) :=
  ⟨fun w => refl_of Same w, fun _ _ h => h, fun _ h => ⟨rfl, h⟩⟩

theorem ask (q : (Option String → Fs) → α) :
    Reads (ask fun _ w => q w.tree) (fun t => .ok (q t)) := by
  refine ⟨fun w => ?_, fun w a h => ?_, fun w h => ?_⟩
  · rw [exec_ask_state]
    exact same_next w
  · rw [(exec_ask_ok (Prod.ext h rfl)).1]
    rfl
  · rw [exec_ask, h 0]
    exact ⟨rfl, h.next⟩

theorem bind {f : α → Io β} {g : α → (Option String → Fs) → Except Exn β} (hm : Reads m v)
    (hf : ∀ a, Reads (f a) (g a)) : Reads (m >>= f) (fun t => v t >>= fun a => g a t) := by
  refine ⟨fun w => ?_, fun w b h => ?_, fun w h => ?_⟩
  · have hs := hm.same w
    rw [exec_bind]
    rcases hr : exec m w with ⟨e | a, w'⟩
    · simpa [hr] using hs
    · exact trans_of Same (by simpa [hr] using hs) ((hf a).same w')
  · obtain ⟨a, w', hr, hb⟩ := exec_bind_eq_ok (Prod.ext h rfl)
    have hv := hm.ok w a (by rw [hr])
    have hs := (hm.same w).tree
    rw [hr] at hs
    have hg := (hf a).ok w' b (by rw [hb])
    rw [hs] at hg
    simpa [hv, Bind.bind, Except.bind] using hg
  · obtain ⟨hv, hc⟩ := hm.calm w h
    have hs := (hm.same w).tree
    rw [exec_bind]
    rcases hr : exec m w with ⟨e | a, w'⟩
    · rw [hr] at hv hc
      simp only at hv hc
      exact ⟨by rw [← hv]; rfl, hc⟩
    · rw [hr] at hv hc hs
      simp only at hv hc hs
      have hg := (hf a).calm w' hc
      rw [hs] at hg
      exact ⟨by rw [← hv]; exact hg.1, hg.2⟩

theorem ite {c : Prop} [Decidable c] {m' : Io α} {v' : (Option String → Fs) → Except Exn α}
    (h : Reads m v) (h' : Reads m' v') :
    Reads (if c then m else m') (fun t => if c then v t else v' t) := by
  split
  · exact h
  · exact h'

theorem moves (h : Reads m v) : Moves Same m := h.same

end Reads

namespace Path

def presentIn (p : Path) (t : Fs) : Bool := ((p.find t).map t.present).getD false

def isFileIn (p : Path) (t : Fs) : Bool := ((p.find t).map t.isFile).getD false

def isDirIn (p : Path) (t : Fs) : Bool := ((p.find t).map t.isDir).getD false

end Path

/-- `path.exists()` -/
def path_exists (p : Path) : Io Bool := ask fun _ w => p.presentIn w.fs

/-- `path.is_file()` -/
def is_file (p : Path) : Io Bool := ask fun _ w => p.isFileIn w.fs

/-- `path.is_dir()` -/
def is_dir (p : Path) : Io Bool := ask fun _ w => p.isDirIn w.fs

/-- The names `path.iterdir()` yields; the order is the tree's own. -/
def iterdir (p : Path) : Io (List Name) :=
  ask fun _ w => ((p.find w.fs).map w.fs.children).getD []

/-- `path.stat().st_mtime` -/
def st_mtime (p : Path) : Io Instant :=
  ask fun _ w => (((p.find w.fs).bind w.fs.lookup).map Node.mtime).getD 0

/-- `datetime.now(timezone.utc)`; the clock can always be read. -/
def now_utc : Io Datetime := primitive fun r w => (.ok (Datetime.utc r.stamp), w)

/-- `socket.gethostname()` -/
def gethostname : Io String := ask fun r _ => r.stdout

end MbKeeper
