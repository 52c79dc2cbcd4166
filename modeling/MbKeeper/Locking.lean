import MbKeeper.Runner
import Mathlib.Logic.Relation

/-!
# Invocations that share a lock file

`flock` locks belong to open file descriptions: the kernel grants the lock to
one description at a time and takes it back when that description unlocks it or
is closed, also by the death of its process. A system is any number of
processes, each in the course of one `acquire_lock` with its body, whose steps
come in any order. The same `finally` runs in the process that was refused as
in the one that was not, so the invariant is about descriptions: no two
processes share one, and whoever is in the body owns the lock.
-/
namespace MbKeeper

/-- Where a process is in `acquire_lock`; `raising` is what it will raise in the end. -/
inductive LockStage where
  | parent
  | opening
  | flock (fd : ℕ)
  | body (fd : ℕ)
  | unlock (fd : ℕ) (raising : Option Exn)
  | close (fd : ℕ) (raising : Option Exn)
  | ended (raising : Option Exn)
  | crashed

/-- How the current step of a process turns out. -/
inductive StepEnd where
  | succeeds
  | fails (e : Exn)
  | crashes

namespace LockStage

/-- The description the process has open. -/
def fd : LockStage → Option ℕ
  | flock a | body a | unlock a _ | close a _ => some a
  | parent | opening | ended _ | crashed => none

def running : LockStage → Bool
  | ended _ | crashed => false
  | _ => true

end LockStage

/-- An `OSError` of the call means that another invocation holds the lock. -/
def flockRaises (lock_path : PurePath) : Exn → Exn
  | .os _ => .lock s!"Another mbkeeper run holds the lock: {lock_path.str}"
  | e => e

/-- The processes, the description that holds the lock, and how many were opened so far. -/
structure LockSystem (ι : Type) where
  stage : ι → LockStage
  holder : Option ℕ
  opened : ℕ

namespace LockSystem

variable {ι : Type}

/-- Nobody has begun. -/
def start : LockSystem ι := ⟨fun _ => .parent, none, 0⟩

/-- The lock when the description `a` gives it back. -/
def freed (holder a : Option ℕ) : Option ℕ := if holder = a then none else holder

def InBody (s : LockSystem ι) (p : ι) : Prop := ∃ a, s.stage p = .body a

variable [DecidableEq ι]

def set (s : LockSystem ι) (p : ι) (g : LockStage) : LockSystem ι :=
  { s with stage := Function.update s.stage p g }

/-- One step of the process `p`. A `LOCK_UN` or `close` that fails, which the source does not expect
of them, counts as one that returned: the source raises its exception instead and leaves the
description to the end of the process, which gives the lock back as well. -/
def step (lock_path : PurePath) (s : LockSystem ι) (p : ι) (r : StepEnd) : Option (LockSystem ι) :=
  match s.stage p, r with
  | .ended _, _ | .crashed, _ => none
  | g, .crashes => some { s.set p .crashed with holder := freed s.holder g.fd }
  | .parent, .succeeds => some (s.set p .opening)
  | .parent, .fails e => some (s.set p (.ended (some e)))
  | .opening, .succeeds => some { s.set p (.flock s.opened) with opened := s.opened + 1 }
  | .opening, .fails e => some (s.set p (.ended (some e)))
  | .flock a, .succeeds =>
    if s.holder = none then some { s.set p (.body a) with holder := some a }
    else some (s.set p (.unlock a (some (flockRaises lock_path (.os "EWOULDBLOCK")))))
  | .flock a, .fails e => some (s.set p (.unlock a (some (flockRaises lock_path e))))
  | .body a, .succeeds => some (s.set p (.unlock a none))
  | .body a, .fails e => some (s.set p (.unlock a (some e)))
  | .unlock a raising, _ =>
    some { s.set p (.close a raising) with holder := freed s.holder (some a) }
  | .close a raising, _ =>
    some { s.set p (.ended raising) with holder := freed s.holder (some a) }

/-- What the steps of all processes, in some order, make of the system. -/
def Runs (lock_path : PurePath) : LockSystem ι → LockSystem ι → Prop :=
  Relation.ReflTransGen (fun s s' => ∃ p r, s.step lock_path p r = some s')

@[simp] theorem stage_set_self (s : LockSystem ι) (p : ι) (g : LockStage) :
    (s.set p g).stage p = g := by simp [set]

theorem stage_set_ne (s : LockSystem ι) {p q : ι} (g : LockStage) (h : q ≠ p) :
    (s.set p g).stage q = s.stage q := by simp [set, h]

variable {lock_path : PurePath} {s s' : LockSystem ι} {p : ι} {r : StepEnd}

/-- What a step may do to the lock: it opens a description, is granted the lock, leaves it alone,
or gives it back for its own description; only the second enters the body. -/
inductive Does (s s' : LockSystem ι) (p : ι) : Prop where
  | opens (hfd : (s'.stage p).fd = some s.opened) (hopened : s'.opened = s.opened + 1)
      (hholder : s'.holder = s.holder) (hout : ¬ s'.InBody p)
  | granted (a : ℕ) (hat : s.stage p = .flock a) (hfree : s.holder = none)
      (hin : s'.stage p = .body a) (hholder : s'.holder = some a) (hopened : s'.opened = s.opened)
  | quiet (hfd : (s'.stage p).fd = (s.stage p).fd) (hholder : s'.holder = s.holder)
      (hopened : s'.opened = s.opened) (hout : ¬ s'.InBody p) (hnew : ∀ a, s'.stage p ≠ .flock a)
  | frees (hfd : (s'.stage p).fd = (s.stage p).fd ∨ (s'.stage p).fd = none)
      (hholder : s'.holder = freed s.holder (s.stage p).fd) (hopened : s'.opened = s.opened)
      (hout : ¬ s'.InBody p) (hnew : ∀ a, s'.stage p ≠ .flock a)

theorem step_cases (h : s.step lock_path p r = some s') :
    (∀ q, q ≠ p → s'.stage q = s.stage q) ∧ Does s s' p := by
  have hcrash : ∀ s' : LockSystem ι,
      s' = { s.set p .crashed with holder := freed s.holder (s.stage p).fd } →
      (∀ q, q ≠ p → s'.stage q = s.stage q) ∧ Does s s' p := by
    rintro s' rfl
    exact ⟨fun q hq => stage_set_ne s _ hq, .frees (.inr (by simp [LockStage.fd])) rfl rfl
      (by simp [InBody]) (by simp)⟩
  have hset : ∀ g : LockStage, g.fd = (s.stage p).fd → (∀ a, g ≠ .body a ∧ g ≠ .flock a) →
      s' = s.set p g → (∀ q, q ≠ p → s'.stage q = s.stage q) ∧ Does s s' p := by
    rintro g hg hbody rfl
    exact ⟨fun q hq => stage_set_ne s _ hq, .quiet (by simpa using hg) rfl rfl
      (by simpa [InBody] using fun a => (hbody a).1) (by simpa using fun a => (hbody a).2)⟩
  unfold step at h
  split at h
  · cases h
  · cases h
  · exact hcrash _ (Option.some.inj h).symm
  · next hs => exact hset .opening (by simp [hs, LockStage.fd]) (by simp) (Option.some.inj h).symm
  · next e hs =>
    exact hset (.ended (some e)) (by simp [hs, LockStage.fd]) (by simp) (Option.some.inj h).symm
  · next hs =>
    obtain rfl := Option.some.inj h
    exact ⟨fun q hq => stage_set_ne s _ hq, .opens (by simp [LockStage.fd]) rfl rfl
      (by simp [InBody])⟩
  · next e hs =>
    exact hset (.ended (some e)) (by simp [hs, LockStage.fd]) (by simp) (Option.some.inj h).symm
  · next a hs =>
    split_ifs at h with hfree
    · obtain rfl := Option.some.inj h
      exact ⟨fun q hq => stage_set_ne s _ hq, .granted a hs hfree (by simp) rfl rfl⟩
    · exact hset _ (by simp [hs, LockStage.fd]) (by simp) (Option.some.inj h).symm
  · next hs => exact hset _ (by simp [hs, LockStage.fd]) (by simp) (Option.some.inj h).symm
  · next hs => exact hset _ (by simp [hs, LockStage.fd]) (by simp) (Option.some.inj h).symm
  · next hs => exact hset _ (by simp [hs, LockStage.fd]) (by simp) (Option.some.inj h).symm
  · next hs _ =>
    obtain rfl := Option.some.inj h
    exact ⟨fun q hq => stage_set_ne s _ hq, .frees (.inl (by simp [hs, LockStage.fd]))
      (by simp [hs, LockStage.fd]) rfl (by simp [InBody]) (by simp)⟩
  · next hs _ =>
    obtain rfl := Option.some.inj h
    exact ⟨fun q hq => stage_set_ne s _ hq, .frees (.inr (by simp [LockStage.fd]))
      (by simp [hs, LockStage.fd]) rfl (by simp [InBody]) (by simp)⟩

/-- No two processes have one description open, whoever is in the body has the lock, and whoever
is about to ask for it has not. -/
structure Apart (s : LockSystem ι) : Prop where
  fresh : ∀ p a, (s.stage p).fd = some a → a < s.opened
  own : ∀ p q a, (s.stage p).fd = some a → (s.stage q).fd = some a → p = q
  held : ∀ a, s.holder = some a → a < s.opened
  body : ∀ p a, s.stage p = .body a → s.holder = some a
  waiting : ∀ p a, s.stage p = .flock a → s.holder ≠ some a

omit [DecidableEq ι] in
theorem Apart.start : Apart (start : LockSystem ι) where
  fresh _ _ h := by cases h
  own _ _ _ h := by cases h
  held _ h := by cases h
  body _ _ h := by cases h
  waiting _ _ h := by cases h

/-- What gives a description back leaves the lock of any other alone. -/
theorem freed_ne {holder fd : Option ℕ} {b : ℕ} (h : holder = some b) (hne : fd ≠ some b) :
    freed holder fd = some b := by
  rw [freed, if_neg (by rw [h]; exact fun he => hne he.symm), h]

theorem freed_eq_some {holder fd : Option ℕ} {b : ℕ} (h : freed holder fd = some b) :
    holder = some b := by
  rw [freed] at h
  split_ifs at h
  exact h

omit [DecidableEq ι] in
/-- A step that gives `p` no new description leaves the descriptions apart. -/
private theorem Apart.descriptions (h : Apart s) (hothers : ∀ q, q ≠ p → s'.stage q = s.stage q)
    (hfd : (s'.stage p).fd = (s.stage p).fd ∨ (s'.stage p).fd = none)
    (hopened : s'.opened = s.opened) :
    (∀ q a, (s'.stage q).fd = some a → a < s'.opened) ∧
      ∀ q q' a, (s'.stage q).fd = some a → (s'.stage q').fd = some a → q = q' := by
  have hback : ∀ q a, (s'.stage q).fd = some a → (s.stage q).fd = some a := by
    intro q a hq
    by_cases hqp : q = p
    · subst hqp
      rcases hfd with hfd | hfd
      · exact hfd ▸ hq
      · rw [hfd] at hq
        cases hq
    · rw [← hothers q hqp]
      exact hq
  exact ⟨fun q a hq => hopened ▸ h.fresh q a (hback q a hq),
    fun q q' a hq hq' => h.own q q' a (hback q a hq) (hback q' a hq')⟩

omit [DecidableEq ι] in
/-- A fresh description is nobody else's. -/
private theorem Apart.fresh_description (h : Apart s)
    (hothers : ∀ q, q ≠ p → s'.stage q = s.stage q) (hfd : (s'.stage p).fd = some s.opened)
    (hopened : s'.opened = s.opened + 1) :
    (∀ q a, (s'.stage q).fd = some a → a < s'.opened) ∧
      ∀ q q' a, (s'.stage q).fd = some a → (s'.stage q').fd = some a → q = q' := by
  have hcase : ∀ q a, (s'.stage q).fd = some a →
      q = p ∧ a = s.opened ∨ q ≠ p ∧ (s.stage q).fd = some a := by
    intro q a hq
    by_cases hqp : q = p
    · exact .inl ⟨hqp, by rw [hqp, hfd] at hq; exact (Option.some.inj hq).symm⟩
    · exact .inr ⟨hqp, hothers q hqp ▸ hq⟩
  constructor
  · intro q a hq
    rcases hcase q a hq with ⟨-, rfl⟩ | ⟨-, hq⟩
    · omega
    · have := h.fresh q a hq
      omega
  · intro q q' a hq hq'
    rcases hcase q a hq with ⟨rfl, rfl⟩ | ⟨-, hq⟩
    · rcases hcase q' _ hq' with ⟨rfl, -⟩ | ⟨-, hq'⟩
      · rfl
      · exact absurd (h.fresh q' _ hq') (lt_irrefl _)
    · rcases hcase q' a hq' with ⟨-, rfl⟩ | ⟨-, hq'⟩
      · exact absurd (h.fresh q _ hq) (lt_irrefl _)
      · exact h.own q q' a hq hq'

theorem Apart.step (h : Apart s) (hstep : s.step lock_path p r = some s') : Apart s' := by
  obtain ⟨hothers, hdoes⟩ := step_cases hstep
  have hold : ∀ q a, q ≠ p → s'.stage q = .body a → s.holder = some a := fun q a hq hb =>
    h.body q a (hothers q hq ▸ hb)
  have hwait : ∀ q a, q ≠ p → s'.stage q = .flock a → s.holder ≠ some a := fun q a hq hb =>
    h.waiting q a (hothers q hq ▸ hb)
  cases hdoes with
  | opens hfd hopened hholder hout =>
    obtain ⟨hfresh, hown⟩ := h.fresh_description hothers hfd hopened
    refine ⟨hfresh, hown, fun a ha => ?_, fun q a hq => ?_, fun q a hq => ?_⟩
    · have := h.held a (hholder ▸ ha)
      omega
    · rw [hholder]
      by_cases hqp : q = p
      · exact absurd ⟨a, hqp ▸ hq⟩ hout
      · exact hold q a hqp hq
    · rw [hholder]
      by_cases hqp : q = p
      · rw [hqp] at hq
        rw [hq] at hfd
        obtain rfl : a = s.opened := Option.some.inj hfd
        exact fun ha => lt_irrefl _ (h.held _ ha)
      · exact hwait q a hqp hq
  | granted a hat hfree hin hholder hopened =>
    have hfd : (s'.stage p).fd = (s.stage p).fd := by rw [hin, hat]; rfl
    obtain ⟨hfresh, hown⟩ := h.descriptions hothers (.inl hfd) hopened
    refine ⟨hfresh, hown, fun b hb => ?_, fun q b hq => ?_, fun q b hq => ?_⟩
    · rw [hholder] at hb
      rw [hopened, ← Option.some.inj hb]
      exact h.fresh p a (by rw [hat]; rfl)
    · by_cases hqp : q = p
      · rw [hqp, hin] at hq
        rw [hholder, LockStage.body.inj hq]
      · rw [hfree] at hold
        exact absurd (hold q b hqp hq) (by simp)
    · rw [hholder]
      intro hb
      obtain rfl := Option.some.inj hb
      have hqp := hown q p a (by rw [hq]; rfl) (by rw [hin]; rfl)
      rw [hqp, hin] at hq
      cases hq
  | quiet hfd hholder hopened hout hnew =>
    obtain ⟨hfresh, hown⟩ := h.descriptions hothers (.inl hfd) hopened
    refine ⟨hfresh, hown, fun a ha => hopened ▸ h.held a (hholder ▸ ha), fun q b hq => ?_,
      fun q b hq => ?_⟩
    · by_cases hqp : q = p
      · exact absurd ⟨b, hqp ▸ hq⟩ hout
      · rw [hholder]
        exact hold q b hqp hq
    · by_cases hqp : q = p
      · exact absurd (hqp ▸ hq) (hnew b)
      · rw [hholder]
        exact hwait q b hqp hq
  | frees hfd hholder hopened hout hnew =>
    obtain ⟨hfresh, hown⟩ := h.descriptions hothers hfd hopened
    refine ⟨hfresh, hown, fun a ha => ?_, fun q b hq => ?_, fun q b hq => ?_⟩
    · rw [hholder] at ha
      exact hopened ▸ h.held a (freed_eq_some ha)
    · by_cases hqp : q = p
      · exact absurd ⟨b, hqp ▸ hq⟩ hout
      · rw [hholder]
        refine freed_ne (hold q b hqp hq) (fun he => hqp ?_)
        exact h.own q p b (by rw [← hothers q hqp, hq]; rfl) he
    · by_cases hqp : q = p
      · exact absurd (hqp ▸ hq) (hnew b)
      · rw [hholder]
        exact fun hb => hwait q b hqp hq (freed_eq_some hb)

theorem Apart.runs (h : Apart s) (hruns : Runs lock_path s s') : Apart s' := by
  induction hruns with
  | refl => exact h
  | tail _ hstep ih =>
    obtain ⟨p, r, hstep⟩ := hstep
    exact ih.step hstep

/-- The process was refused the lock and is on its way out with `e`, or has died. -/
inductive Refused (s : LockSystem ι) (p : ι) (a : ℕ) (e : Exn) : Prop where
  | unlock (h : s.stage p = .unlock a (some e)) (hholder : s.holder ≠ some a)
  | close (h : s.stage p = .close a (some e)) (hholder : s.holder ≠ some a)
  | ended (h : s.stage p = .ended (some e))
  | crashed (h : s.stage p = .crashed)

namespace Refused

variable {q : ι} {a : ℕ} {e : Exn}

omit [DecidableEq ι] in
theorem not_inBody (h : Refused s p a e) : ¬ s.InBody p := by
  rintro ⟨b, hb⟩
  cases h with
  | unlock h => simp [h] at hb
  | close h => simp [h] at hb
  | ended h => simp [h] at hb
  | crashed h => simp [h] at hb

/-- The way out of a process that was refused changes nothing about the lock. -/
theorem own_step (h : Refused s p a e) (hstep : s.step lock_path p r = some s') :
    Refused s' p a e ∧ s'.holder = s.holder := by
  have hkeep (ha : s.holder ≠ some a) : freed s.holder (some a) = s.holder := if_neg ha
  unfold step at hstep
  cases h with
  | unlock h ha =>
    cases r <;> simp only [h, Option.some.injEq] at hstep <;> subst hstep
    · exact ⟨.close (by simp) (by simpa [hkeep ha] using ha), hkeep ha⟩
    · exact ⟨.close (by simp) (by simpa [hkeep ha] using ha), hkeep ha⟩
    · exact ⟨.crashed (by simp), hkeep ha⟩
  | close h ha =>
    cases r <;> simp only [h, Option.some.injEq] at hstep <;> subst hstep
    · exact ⟨.ended (by simp), hkeep ha⟩
    · exact ⟨.ended (by simp), hkeep ha⟩
    · exact ⟨.crashed (by simp), hkeep ha⟩
  | ended h => simp [h] at hstep
  | crashed h => simp [h] at hstep

/-- No step of another process grants the lock to a description that is not its own. -/
theorem other_step (hs : Apart s) (h : Refused s p a e) (hstep : s.step lock_path q r = some s')
    (hq : q ≠ p) : Refused s' p a e := by
  obtain ⟨hothers, hdoes⟩ := step_cases hstep
  have hp := hothers p (Ne.symm hq)
  have hlock (hfd : (s.stage p).fd = some a) (hne : s.holder ≠ some a) : s'.holder ≠ some a := by
    cases hdoes with
    | opens _ _ hholder => rwa [hholder]
    | granted b hat _ _ hholder =>
      rw [hholder]
      intro hb
      obtain rfl := Option.some.inj hb
      exact hq (hs.own q p b (by rw [hat]; rfl) hfd)
    | quiet _ hholder => rwa [hholder]
    | frees _ hholder =>
      rw [hholder, freed]
      split_ifs
      · simp
      · exact hne
  cases h with
  | unlock h ha => exact .unlock (hp.trans h) (hlock (by rw [h]; rfl) ha)
  | close h ha => exact .close (hp.trans h) (hlock (by rw [h]; rfl) ha)
  | ended h => exact .ended (hp.trans h)
  | crashed h => exact .crashed (hp.trans h)

theorem runs (hs : Apart s) (h : Refused s p a e) (hruns : Runs lock_path s s') :
    Apart s' ∧ Refused s' p a e := by
  induction hruns with
  | refl => exact ⟨hs, h⟩
  | tail _ hstep ih =>
    obtain ⟨q, r, hstep⟩ := hstep
    refine ⟨ih.1.step hstep, ?_⟩
    by_cases hq : q = p
    · subst hq
      exact (ih.2.own_step hstep).1
    · exact ih.2.other_step ih.1 hstep hq

end Refused

/-- A process whose `flock` fails is refused. -/
theorem Refused.of_flock {a : ℕ} (hs : Apart s) (hat : s.stage p = .flock a)
    (hstep : s.step lock_path p r = some s') (hout : ¬ s'.InBody p)
    (hr : r = .succeeds ∨ ∃ m, r = .fails (.os m)) :
    Refused s' p a (.lock s!"Another mbkeeper run holds the lock: {lock_path.str}") := by
  have hne := hs.waiting p a hat
  unfold step at hstep
  rcases hr with rfl | ⟨m, rfl⟩
  · simp only [hat] at hstep
    split_ifs at hstep
    · obtain rfl := Option.some.inj hstep
      exact absurd ⟨a, by simp⟩ hout
    · obtain rfl := Option.some.inj hstep
      exact .unlock (by simp [flockRaises]) hne
  · simp only [hat] at hstep
    obtain rfl := Option.some.inj hstep
    exact .unlock (by simp [flockRaises]) hne

/-- However the steps of the processes interleave, at most one of them is in the body. A process
whose `flock` failed raises a `LockError`, never enters the body, and its way out, `LOCK_UN` and
`close` included, leaves the lock as it is. -/
theorem one_invocation_at_a_time (hruns : Runs lock_path start s) :
    (∀ p q, s.InBody p → s.InBody q → p = q) ∧
      ∀ p a, s.stage p = .flock a → ∀ r s', s.step lock_path p r = some s' → ¬ s'.InBody p →
        (r = .succeeds ∨ ∃ m, r = .fails (.os m)) → ∀ u, Runs lock_path s' u →
          ¬ u.InBody p ∧ (∀ r' v, u.step lock_path p r' = some v → v.holder = u.holder) ∧
            ∀ raising, u.stage p = .ended raising →
              raising = some (.lock s!"Another mbkeeper run holds the lock: {lock_path.str}") := by
  have hs := Apart.start.runs hruns
  refine ⟨fun p q ⟨a, hp⟩ ⟨b, hq⟩ => ?_, fun p a hat r s' hstep hout hr u hu => ?_⟩
  · have hab : some a = some b := (hs.body p a hp).symm.trans (hs.body q b hq)
    exact hs.own p q a (by rw [hp]; rfl) (by rw [hq]; exact hab.symm)
  · obtain ⟨-, hout⟩ := (Refused.of_flock hs hat hstep hout hr).runs (hs.step hstep) hu
    refine ⟨hout.not_inBody, fun r' v hv => (hout.own_step hv).2, fun raising hend => ?_⟩
    cases hout with
    | unlock h => simp [h] at hend
    | close h => simp [h] at hend
    | ended h => exact (LockStage.ended.inj (h.symm.trans hend)).symm
    | crashed h => simp [h] at hend

/-- Two processes: the second asks while the first is in the body, and is refused. -/
theorem one_invocation_at_a_time_two :
    ∃ s s' : LockSystem Bool, Runs LockConfig.default.file start s ∧
      s.step LockConfig.default.file false .succeeds = some s' ∧ s'.InBody true ∧
        ¬ s'.InBody false ∧ s'.holder = some 0 := by
  have hone : ∀ s s' : LockSystem Bool, (∃ p r, s.step LockConfig.default.file p r = some s') →
      Runs LockConfig.default.file s s' := fun s s' h => Relation.ReflTransGen.single h
  have h₁ := hone start _ ⟨true, .succeeds, rfl⟩
  have h₂ := h₁.trans (hone _ _ ⟨true, .succeeds, rfl⟩)
  have h₃ := h₂.trans (hone _ _ ⟨true, .succeeds, rfl⟩)
  have h₄ := h₃.trans (hone _ _ ⟨false, .succeeds, rfl⟩)
  have h₅ := h₄.trans (hone _ _ ⟨false, .succeeds, rfl⟩)
  have hout := (one_invocation_at_a_time h₅).2 false 1 rfl .succeeds _ rfl
    (by rintro ⟨a, ha⟩; cases ha) (.inl rfl) _ .refl
  exact ⟨_, _, h₅, rfl, ⟨0, rfl⟩, hout.1, rfl⟩

/-- A step of the process at a running stage, taken alone. -/
theorem runs_step (h : s.step lock_path p r = some s') : Runs lock_path s s' := .single ⟨p, r, h⟩

theorem step_parent (lock_path : PurePath) (hp : s.stage p = .parent) :
    s.step lock_path p .succeeds = some (s.set p .opening) ∧
      ∀ e, s.step lock_path p (.fails e) = some (s.set p (.ended (some e))) := by
  unfold step
  simp only [hp]
  exact ⟨trivial, fun e => trivial⟩

theorem step_opening (lock_path : PurePath) (hp : s.stage p = .opening) :
    s.step lock_path p .succeeds = some { s.set p (.flock s.opened) with opened := s.opened + 1 } ∧
      ∀ e, s.step lock_path p (.fails e) = some (s.set p (.ended (some e))) := by
  unfold step
  simp only [hp]
  exact ⟨trivial, fun e => trivial⟩

/-- A process that is refused and does not die comes to its end. -/
theorem Refused.leaves (lock_path : PurePath) {a : ℕ} {e : Exn} (h : s.stage p = .unlock a (some e))
    (ha : s.holder ≠ some a) :
    ∃ u, Runs lock_path s u ∧ u.stage p = .ended (some e) ∧ u.holder = s.holder := by
  have hfreed : freed s.holder (some a) = s.holder := if_neg ha
  have h₁ : s.step lock_path p .succeeds =
      some { s.set p (.close a (some e)) with holder := freed s.holder (some a) } := by
    unfold step
    simp only [h]
  have h₂ : ∀ v : LockSystem ι, v.stage p = .close a (some e) → v.step lock_path p .succeeds =
      some { v.set p (.ended (some e)) with holder := freed v.holder (some a) } := by
    intro v hv
    unfold step
    simp only [hv]
  refine ⟨_, (runs_step h₁).trans (runs_step (h₂ _ (by simp))), by simp, ?_⟩
  simp [hfreed]

/-- `acquire_lock` takes the steps of a process: when it returns, on a free lock, the process is in
the body, and when it raises, the process ends with what it raised and the lock is as it was. -/
theorem acquire_lock_steps {cwd : Loc} {w w' : World} {res : Except Exn Unit}
    (h : exec (acquire_lock cwd lock_path) w = (res, w')) (hs : Apart s)
    (hp : s.stage p = .parent) :
    (res = .ok () → s.holder = none → ∃ u, Runs lock_path s u ∧ u.InBody p) ∧
      ∀ e, res = .error e → e ≠ .crash →
        ∃ u, Runs lock_path s u ∧ u.stage p = .ended (some e) ∧ u.holder = s.holder := by
  obtain ⟨hmade, hfailed⟩ := step_parent lock_path hp
  rcases exec_bind_cases h with ⟨e, -, rfl⟩ | ⟨_, w₁, -, h⟩
  · refine ⟨nofun, fun e' he' _ => ⟨_, runs_step (hfailed e), ?_, rfl⟩⟩
    rw [stage_set_self, Except.error.inj he']
  have h₁ := runs_step hmade
  obtain ⟨hopened, hfailed⟩ := step_opening lock_path
    (stage_set_self s p .opening)
  rcases exec_bind_cases h with ⟨e, -, rfl⟩ | ⟨_, w₂, -, h⟩
  · refine ⟨nofun, fun e' he' _ => ⟨_, h₁.trans (runs_step (hfailed e)), ?_, rfl⟩⟩
    rw [stage_set_self, Except.error.inj he']
  have h₂ := h₁.trans (runs_step hopened)
  generalize hv : ({ (s.set p .opening).set p (.flock (s.set p .opening).opened) with
    opened := (s.set p .opening).opened + 1 } : LockSystem ι) = v at h₂
  have hat : v.stage p = .flock s.opened := by
    rw [← hv]
    exact stage_set_self _ _ _
  have hholder : v.holder = s.holder := by
    rw [← hv]
    rfl
  rw [flock, exec_tryCatch, exec_ask] at h
  cases hf : (w₂.tape 0).fault with
  | none =>
    obtain ⟨rfl, -⟩ : res = .ok () ∧ _ := by simpa [hf, eq_comm] using h
    refine ⟨fun _ hfree => ?_, nofun⟩
    have h₃ : v.step lock_path p .succeeds =
        some { v.set p (.body s.opened) with holder := some s.opened } := by
      unfold step
      simp only [hat]
      rw [if_pos (hholder.trans hfree)]
    exact ⟨_, h₂.trans (runs_step h₃), s.opened, by simp⟩
  | some e =>
    have hres : res = .error (flockRaises lock_path e) := by
      rw [hf] at h
      cases e <;> exact (congrArg Prod.fst h).symm
    subst hres
    refine ⟨nofun, fun e' he' _ => ?_⟩
    obtain rfl := Except.error.inj he'
    have h₃ : v.step lock_path p (.fails e) =
        some (v.set p (.unlock s.opened (some (flockRaises lock_path e)))) := by
      unfold step
      simp only [hat]
    have hne : v.holder ≠ some s.opened := by
      rw [hholder]
      exact fun ha => lt_irrefl _ (hs.held _ ha)
    obtain ⟨u, hu, hend, hsame⟩ := Refused.leaves lock_path
      (s := v.set p (.unlock s.opened (some (flockRaises lock_path e)))) (stage_set_self _ _ _) hne
    exact ⟨u, h₂.trans ((runs_step h₃).trans hu), hend, hsame.trans hholder⟩

end LockSystem

end MbKeeper
