import MbKeeper.FileTree

/-!
# Histories of a file tree

A history is a list of events: files and directories made, files written,
entries removed, and times copied from elsewhere. An event that is impossible
in the tree at hand has no result, so a history that can be replayed is one
that happened. `ownTime` reads from a history of what happened inside a
directory the time of modification of that directory itself.
-/
namespace MbKeeper

variable {ν δ : Type}

inductive TreeChange (ν δ : Type) where
  | create (l : List ν) (k : Kind δ)
  | write (l : List ν) (data : δ)
  | remove (l : List ν)
  /-- The time of modification of `l` is set. -/
  | copystat (l : List ν) (mtime : ℤ)
  deriving DecidableEq, Repr

structure TreeEvent (ν δ : Type) where
  change : TreeChange ν δ
  time : ℤ
  deriving DecidableEq, Repr

namespace TreeEvent

/-- The event happens below `base`, or sets a time there or at `base` itself. -/
def Inside (base : List ν) (e : TreeEvent ν δ) : Prop :=
  match e.change with
  | .create l _ | .write l _ | .remove l => base <+: l ∧ l ≠ base
  | .copystat l _ => base <+: l

/-- The event changes what is there, not only a time. -/
def Modifies (e : TreeEvent ν δ) : Prop :=
  match e.change with
  | .copystat _ _ => False
  | _ => True

instance [DecidableEq ν] (base : List ν) (e : TreeEvent ν δ) : Decidable (e.Inside base) :=
  match e with
  | ⟨.create l _, _⟩ => inferInstanceAs (Decidable (base <+: l ∧ l ≠ base))
  | ⟨.write l _, _⟩ => inferInstanceAs (Decidable (base <+: l ∧ l ≠ base))
  | ⟨.remove l, _⟩ => inferInstanceAs (Decidable (base <+: l ∧ l ≠ base))
  | ⟨.copystat l _, _⟩ => inferInstanceAs (Decidable (base <+: l))

instance (e : TreeEvent ν δ) : Decidable e.Modifies :=
  match e with
  | ⟨.create _ _, _⟩ | ⟨.write _ _, _⟩ | ⟨.remove _, _⟩ => isTrue trivial
  | ⟨.copystat _ _, _⟩ => isFalse (fun h => h)

variable [DecidableEq ν]

/-- The time the event gives to the directory `base`, if it gives it one. -/
def stamp (base : List ν) (e : TreeEvent ν δ) : Option ℤ :=
  match e.change with
  | .create l _ | .remove l => if l.dropLast = base then some e.time else none
  | .write _ _ => none
  | .copystat l mtime => if l = base then some mtime else none

/-- The tree after the event, where the event is possible. -/
def apply (t : FileTree ν δ) (e : TreeEvent ν δ) : Option (FileTree ν δ) :=
  match e.change with
  | .create l k => if t.isDir l.dropLast ∧ ¬ t.present l then some (t.create l k e.time) else none
  | .write l data => if t.isFile l then some (t.write l data e.time) else none
  | .remove l =>
    if t.present l ∧ (t.isFile l ∨ t.children l = []) then some (t.removeTree l e.time) else none
  | .copystat l mtime => if t.present l then some (t.touch l mtime) else none

end TreeEvent

namespace FileTree

variable [DecidableEq ν]

/-- The tree after the events, one after the other. -/
def replay (t : FileTree ν δ) (history : List (TreeEvent ν δ)) : Option (FileTree ν δ) :=
  history.foldlM TreeEvent.apply t

end FileTree

/-- The time of modification of the directory `base` after a history inside it. -/
def ownTime [DecidableEq ν] (base : List ν) (history : List (TreeEvent ν δ)) (start : ℤ) : ℤ :=
  history.foldl (fun mtime e => (e.stamp base).getD mtime) start

section

variable [DecidableEq ν] {t t' : FileTree ν δ} {base : List ν} {e : TreeEvent ν δ}
  {history : List (TreeEvent ν δ)}

@[simp] theorem ownTime_nil (base : List ν) (start : ℤ) :
    ownTime base ([] : List (TreeEvent ν δ)) start = start := rfl

@[simp] theorem ownTime_cons (base : List ν) (e : TreeEvent ν δ) (history : List (TreeEvent ν δ))
    (start : ℤ) : ownTime base (e :: history) start =
      ownTime base history ((e.stamp base).getD start) := rfl

theorem replay_cons (h : t.replay (e :: history) = some t') :
    ∃ u, e.apply t = some u ∧ u.replay history = some t' := by
  rw [FileTree.replay, List.foldlM_cons] at h
  exact Option.bind_eq_some_iff.mp h

/-- What an event can do. -/
theorem TreeEvent.apply_cases (h : e.apply t = some t') :
    (∃ l k, e.change = .create l k ∧ t.kind l.dropLast = some .dir ∧ t.kind l = none ∧
      t' = t.create l k e.time) ∨
    (∃ l data, e.change = .write l data ∧ t.isFile l = true ∧ t' = t.put l ⟨.file data, e.time⟩) ∨
    (∃ l, e.change = .remove l ∧ t' = t.removeTree l e.time) ∨
    (∃ l mtime, e.change = .copystat l mtime ∧ t' = t.touch l mtime) := by
  unfold TreeEvent.apply at h
  cases hc : e.change with
  | create l k =>
    simp only [hc] at h
    split_ifs at h with hg
    refine .inl ⟨l, k, rfl, (FileTree.isDir_iff _ _).mp hg.1, ?_, (Option.some.inj h).symm⟩
    simpa [FileTree.present_iff] using hg.2
  | write l data =>
    simp only [hc] at h
    split_ifs at h with hg
    have hpresent : t.present l = true := by
      obtain ⟨d, hd⟩ := (FileTree.isFile_iff t l).mp hg
      exact (FileTree.present_iff t l).mpr (by simp [hd])
    refine .inr (.inl ⟨l, data, rfl, hg, ?_⟩)
    rw [← Option.some.inj h, FileTree.write, if_pos hpresent]
  | remove l =>
    simp only [hc] at h
    split_ifs at h with hg
    exact .inr (.inr (.inl ⟨l, rfl, (Option.some.inj h).symm⟩))
  | copystat l mtime =>
    simp only [hc] at h
    split_ifs at h with hg
    exact .inr (.inr (.inr ⟨l, mtime, rfl, (Option.some.inj h).symm⟩))

theorem lookup_touch_self (t : FileTree ν δ) (l : List ν) (s : ℤ) :
    (t.touch l s).lookup l = (t.lookup l).map (fun n => ⟨n.kind, s⟩) := by simp [FileTree.touch]

/-- A directory keeps its time unless the event stamps it. -/
theorem lookup_apply (hin : e.Inside base) (h : e.apply t = some t') :
    t'.lookup base = (t.lookup base).map (fun n => ⟨n.kind, (e.stamp base).getD n.mtime⟩) := by
  have hsame : ∀ o : Option (Node δ), o.map (fun n => ⟨n.kind, n.mtime⟩) = o := by
    intro o
    cases o <;> rfl
  unfold TreeEvent.Inside at hin
  unfold TreeEvent.stamp
  rcases TreeEvent.apply_cases h with ⟨l, k, hc, -, -, rfl⟩ | ⟨l, data, hc, -, rfl⟩ | ⟨l, hc, rfl⟩ |
    ⟨l, mtime, hc, rfl⟩
  · simp only [hc] at hin ⊢
    by_cases hl : l.dropLast = base
    · subst hl
      have hput : (t.put l ⟨k, e.time⟩).lookup l.dropLast = t.lookup l.dropLast := by
        simp [FileTree.put, hin.2.symm]
      rw [FileTree.create, lookup_touch_self, hput, if_pos rfl]
      rfl
    · rw [FileTree.lookup_create t k e.time hin.2.symm (Ne.symm hl), if_neg hl]
      exact (hsame _).symm
  · simp only [hc] at hin ⊢
    have hput : (t.put l ⟨.file data, e.time⟩).lookup base = t.lookup base := by
      simp [FileTree.put, hin.2.symm]
    rw [hput]
    exact (hsame _).symm
  · simp only [hc] at hin ⊢
    have hnot : ¬ l <+: base := fun hl => hin.2 (hl.eq_of_length_le hin.1.length_le)
    by_cases hl : l.dropLast = base
    · subst hl
      have hprune : (t.prune l).lookup l.dropLast = t.lookup l.dropLast := by
        simp [FileTree.prune, hnot]
      rw [FileTree.removeTree, lookup_touch_self, hprune, if_pos rfl]
      rfl
    · rw [FileTree.lookup_removeTree t e.time hnot (Ne.symm hl), if_neg hl]
      exact (hsame _).symm
  · simp only [hc] at hin ⊢
    by_cases hl : l = base
    · rw [hl, lookup_touch_self, if_pos rfl]
      rfl
    · rw [FileTree.lookup_touch_ne t mtime (Ne.symm hl), if_neg hl]
      exact (hsame _).symm

/-- After a history inside a directory, its time is the one read off the history. -/
theorem lookup_replay (hin : ∀ e ∈ history, e.Inside base) (h : t.replay history = some t') :
    t'.lookup base = (t.lookup base).map (fun n => ⟨n.kind, ownTime base history n.mtime⟩) := by
  induction history generalizing t with
  | nil =>
    obtain rfl := Option.some.inj h
    cases t.lookup base <;> rfl
  | cons e history ih =>
    obtain ⟨u, hu, h⟩ := replay_cons h
    rw [ih (fun f hf => hin f (List.mem_cons_of_mem _ hf)) h,
      lookup_apply (hin e List.mem_cons_self) hu, Option.map_map]
    rfl

end

namespace FileTree

/-- What was removed was removed with all it held. -/
def Uproots (t t' : FileTree ν δ) : Prop :=
  ∀ l, t'.kind l = t.kind l ∨ ∀ q, l <+: q → t'.kind q = none

namespace Uproots

variable {t t' t'' : FileTree ν δ}

theorem refl (t : FileTree ν δ) : Uproots t t := fun _ => .inl rfl

theorem trans (h : Uproots t t') (h' : Uproots t' t'') : Uproots t t'' := by
  intro l
  rcases h' l with heq | hgone
  · rcases h l with heq' | hgone'
    · exact .inl (heq.trans heq')
    · -- what was gone below `l` has not come back
      refine .inr (fun q hq => ?_)
      rcases h' q with heq'' | hgone''
      · rw [heq'', hgone' q hq]
      · exact hgone'' q (List.prefix_refl q)
  · exact .inr hgone

/-- What is still there was there before, and so is all that it stands in. -/
theorem back (h : Uproots t t') {q l : List ν} (hq : t'.kind q ≠ none) (hl : l <+: q) :
    t'.kind l = t.kind l :=
  (h l).resolve_right (fun hgone => hq (hgone q hl))

variable [DecidableEq ν]

theorem removeTree (t : FileTree ν δ) (l : List ν) (s : ℤ) : Uproots t (t.removeTree l s) := by
  intro m
  by_cases hm : l <+: m
  · refine .inr (fun q hq => ?_)
    rw [kind_removeTree, if_pos (hm.trans hq)]
  · exact .inl (by rw [kind_removeTree, if_neg hm])

theorem clear (t : FileTree ν δ) (l : List ν) (s : ℤ) : Uproots t (t.clear l s) := by
  intro m
  by_cases hm : l <+: m ∧ m ≠ l
  · refine .inr (fun q hq => ?_)
    have hne : q ≠ l := by
      rintro rfl
      exact hm.2 (hq.eq_of_length_le hm.1.length_le)
    rw [kind_clear, if_pos ⟨hm.1.trans hq, hne⟩]
  · exact .inl (by rw [kind_clear, if_neg hm])

theorem unlinkAll (t : FileTree ν δ) (ls : List (List ν)) (s : ℤ) :
    Uproots t (t.unlinkAll ls s) := by
  induction ls generalizing t with
  | nil => exact refl t
  | cons l ls ih =>
    have hone : Uproots t (t.unlink l s) := by
      unfold unlink
      split_ifs
      · exact removeTree t l s
      · exact refl t
    exact hone.trans (ih (t.unlink l s))

end Uproots

end FileTree

end MbKeeper
