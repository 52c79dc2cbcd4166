import MbKeeper.Locking
import Mathlib.Algebra.BigOperators.Fin
import Mathlib.Algebra.Order.BigOperators.Group.Finset

/-!
# The lock is always given back

Nobody waits in this protocol: a process that is not out can always take its
next step, and it has at most six of them. Whoever owns the lock still has its
description open, so no death leaves the lock behind, and the next invocation
gets in as soon as nobody has the lock file open. What the processes do in
their bodies they do one after the other, in the order in which they got in.
-/
namespace MbKeeper

namespace LockStage

/-- How many steps a process has before it at most. -/
def rest : LockStage → ℕ
  | parent => 6
  | opening => 5
  | flock _ => 4
  | body _ => 3
  | unlock _ _ => 2
  | close _ _ => 1
  | ended _ | crashed => 0

/-- Whether the process is or was in the body, or is on its way out. -/
def past : LockStage → Bool
  | parent | opening | flock _ => false
  | _ => true

theorem running_of_fd {g : LockStage} {a : ℕ} (h : g.fd = some a) : g.running = true := by
  cases g with
  | parent => cases h
  | opening => cases h
  | ended raising => cases h
  | crashed => cases h
  | _ => rfl

end LockStage

namespace LockSystem

variable {ι : Type} [DecidableEq ι] {lock_path : PurePath} {s s' : LockSystem ι} {p : ι}
  {r : StepEnd}

/-- Whatever the outcome, a process that is not out takes a step. -/
theorem step_running (lock_path : PurePath) (h : (s.stage p).running = true) (r : StepEnd) :
    ∃ s', s.step lock_path p r = some s' := by
  unfold step
  cases hg : s.stage p with
  | ended raising =>
    rw [hg] at h
    cases h
  | crashed =>
    rw [hg] at h
    cases h
  | flock a =>
    cases r with
    | succeeds =>
      by_cases hfree : s.holder = none
      · exact ⟨_, if_pos hfree⟩
      · exact ⟨_, if_neg hfree⟩
    | fails e => exact ⟨_, rfl⟩
    | crashes => exact ⟨_, rfl⟩
  | _ => cases r <;> exact ⟨_, rfl⟩

/-- A step takes its process forward. -/
theorem step_forward (h : s.step lock_path p r = some s') :
    (s'.stage p).rest < (s.stage p).rest ∧
      ((s.stage p).past = true → (s'.stage p).past = true) := by
  unfold step at h
  split at h
  · cases h
  · cases h
  · next hp hp' =>
    obtain rfl := Option.some.inj h
    rw [stage_set_self]
    refine ⟨?_, fun _ => rfl⟩
    cases hg : s.stage p with
    | ended raising => exact absurd hg (hp raising)
    | crashed => exact absurd hg hp'
    | _ => simp [LockStage.rest]
  case h_8 a hg =>
    -- `flock`, which either is granted or is not
    split_ifs at h
    · obtain rfl := Option.some.inj h
      simp [hg, LockStage.rest, LockStage.past]
    · obtain rfl := Option.some.inj h
      simp [hg, LockStage.rest, LockStage.past]
  case h_12 a raising hg _ =>
    obtain rfl := Option.some.inj h
    simp [hg, LockStage.rest, LockStage.past]
  case h_13 a raising hg _ =>
    obtain rfl := Option.some.inj h
    simp [hg, LockStage.rest, LockStage.past]
  all_goals
    next hg =>
    obtain rfl := Option.some.inj h
    simp [hg, LockStage.rest, LockStage.past]

/-- Whoever owns the lock has its description open. -/
def Held (s : LockSystem ι) : Prop := ∀ a, s.holder = some a → ∃ p, (s.stage p).fd = some a

omit [DecidableEq ι] in
theorem Held.start : Held (start : LockSystem ι) := by
  intro a h
  cases h

/-- Only what has no description yet opens one. -/
theorem fd_of_opens (h : s.step lock_path p r = some s') (hopened : s'.opened = s.opened + 1) :
    (s.stage p).fd = none := by
  unfold step at h
  split at h
  case h_6 hg =>
    rw [hg]
    rfl
  case h_8 a hg =>
    split_ifs at h
    · obtain rfl := Option.some.inj h
      simp [set] at hopened
    · obtain rfl := Option.some.inj h
      simp [set] at hopened
  case h_1 => cases h
  case h_2 => cases h
  all_goals
    obtain rfl := Option.some.inj h
    simp [set] at hopened

theorem Held.step (h : Held s) (hstep : s.step lock_path p r = some s') : Held s' := by
  obtain ⟨hothers, hdoes⟩ := step_cases hstep
  -- whoever had it open before has it still, unless it is `p`
  have hkeep {a : ℕ} {q : ι} (hq : (s.stage q).fd = some a)
      (hself : q = p → (s'.stage p).fd = some a) : ∃ p, (s'.stage p).fd = some a := by
    by_cases hqp : q = p
    · exact ⟨p, hself hqp⟩
    · exact ⟨q, by rw [hothers q hqp, hq]⟩
  intro a ha
  cases hdoes with
  | opens hfd hopened hholder hout =>
    rw [hholder] at ha
    obtain ⟨q, hq⟩ := h a ha
    have hnone := fd_of_opens hstep hopened
    refine hkeep hq (fun hqp => ?_)
    rw [hqp, hnone] at hq
    cases hq
  | granted b hat hfree hin hholder hopened =>
    rw [hholder] at ha
    exact ⟨p, by rw [hin]; exact ha⟩
  | quiet hfd hholder hopened hout hnew =>
    rw [hholder] at ha
    obtain ⟨q, hq⟩ := h a ha
    exact hkeep hq (fun hqp => by rw [hfd, ← hqp, hq])
  | frees hfd hholder hopened hout hnew =>
    rw [hholder] at ha
    obtain ⟨q, hq⟩ := h a (freed_eq_some ha)
    refine hkeep hq (fun hqp => ?_)
    -- the description of `p` was the owner, so the lock is free now
    rw [hqp] at hq
    rw [freed, freed_eq_some ha, hq, if_pos rfl] at ha
    cases ha

theorem Held.runs (h : Held s) (hruns : Runs lock_path s s') : Held s' := by
  induction hruns with
  | refl => exact h
  | tail _ hstep ih =>
    obtain ⟨p, r, hstep⟩ := hstep
    exact ih.step hstep

/-- With nobody else on the lock file, an invocation that meets no fault gets in. -/
theorem gets_in (lock_path : PurePath) (hfree : s.holder = none) (hp : s.stage p = .parent) :
    ∃ u, Runs lock_path s u ∧ u.InBody p := by
  have hmade := (step_parent lock_path hp).1
  have hopened := (step_opening lock_path (stage_set_self s p .opening)).1
  have h := (runs_step hmade).trans (runs_step hopened)
  generalize hv : ({ (s.set p .opening).set p (.flock (s.set p .opening).opened) with
    opened := (s.set p .opening).opened + 1 } : LockSystem ι) = v at h
  have hat : v.stage p = .flock s.opened := by
    rw [← hv]
    exact stage_set_self _ _ _
  have hholder : v.holder = none := by
    rw [← hv]
    exact hfree
  have hgranted : v.step lock_path p .succeeds =
      some { v.set p (.body s.opened) with holder := some s.opened } := by
    unfold step
    simp only [hat]
    exact if_pos hholder
  exact ⟨_, h.trans (runs_step hgranted), s.opened, stage_set_self _ _ _⟩

/-- However the invocations interleave, fail and die: the lock is held only by an invocation that
still runs and has the lock file open, so it is free when nobody has, and then the next one can
get in. -/
theorem lock_never_left_behind (hruns : Runs lock_path start s) :
    (∀ a, s.holder = some a → ∃ p, (s.stage p).fd = some a ∧ (s.stage p).running = true) ∧
      ((∀ q, (s.stage q).fd = none) → s.holder = none ∧
        ∀ p, s.stage p = .parent → ∃ u, Runs lock_path s u ∧ u.InBody p) := by
  have hheld := Held.start.runs hruns
  refine ⟨fun a ha => ?_, fun hnobody => ?_⟩
  · obtain ⟨p, hp⟩ := hheld a ha
    exact ⟨p, hp, LockStage.running_of_fd hp⟩
  · have hfree : s.holder = none := by
      cases ha : s.holder with
      | none => rfl
      | some a =>
        obtain ⟨p, hp⟩ := hheld a ha
        rw [hnobody p] at hp
        cases hp
    exact ⟨hfree, fun p hp => gets_in lock_path hfree hp⟩

/-- The lock is free again after the death of the process in the body. -/
theorem lock_never_left_behind_crash : ∃ s : LockSystem Bool,
    Runs LockConfig.default.file start s ∧ s.stage true = .crashed ∧ s.holder = none ∧
      ∃ u, Runs LockConfig.default.file s u ∧ u.InBody false := by
  have hone : ∀ s s' : LockSystem Bool, (∃ r, s.step LockConfig.default.file true r = some s') →
      Runs LockConfig.default.file s s' := fun s s' ⟨r, h⟩ => runs_step h
  have h₁ := hone start _ ⟨.succeeds, rfl⟩
  have h₂ := h₁.trans (hone _ _ ⟨.succeeds, rfl⟩)
  have h₃ := h₂.trans (hone _ _ ⟨.succeeds, rfl⟩)
  have h₄ := h₃.trans (hone _ _ ⟨.crashes, rfl⟩)
  obtain ⟨hfree, hnext⟩ := (lock_never_left_behind h₄).2 (fun q => by cases q <;> rfl)
  exact ⟨_, h₄, rfl, hfree, hnext false rfl⟩

/-- What the steps of the schedule make of the system. -/
def follow (lock_path : PurePath) : LockSystem ι → List (ι × StepEnd) → Option (LockSystem ι)
  | s, [] => some s
  | s, (p, r) :: schedule =>
    match s.step lock_path p r with
    | none => none
    | some s' => follow lock_path s' schedule

theorem follow_cons {schedule : List (ι × StepEnd)}
    (h : follow lock_path s ((p, r) :: schedule) = some s') :
    ∃ u, s.step lock_path p r = some u ∧ follow lock_path u schedule = some s' := by
  unfold follow at h
  split at h
  · cases h
  · next u hu => exact ⟨u, hu, h⟩

theorem follow_runs {schedule : List (ι × StepEnd)}
    (h : follow lock_path s schedule = some s') : Runs lock_path s s' := by
  induction schedule generalizing s with
  | nil =>
    obtain rfl := Option.some.inj h
    exact .refl
  | cons step schedule ih =>
    obtain ⟨p, r⟩ := step
    obtain ⟨u, hu, h⟩ := follow_cons h
    exact (runs_step hu).trans (ih h)

section

variable [Fintype ι]

/-- The steps that are left to all processes together. -/
def remaining (s : LockSystem ι) : ℕ := ∑ p, (s.stage p).rest

theorem remaining_step (h : s.step lock_path p r = some s') : s'.remaining < s.remaining := by
  have hothers := (step_cases h).1
  refine Finset.sum_lt_sum (fun q _ => ?_) ⟨p, Finset.mem_univ p, (step_forward h).1⟩
  by_cases hq : q = p
  · rw [hq]
    exact (step_forward h).1.le
  · rw [hothers q hq]

theorem length_le_remaining {schedule : List (ι × StepEnd)}
    (h : follow lock_path s schedule = some s') :
    schedule.length + s'.remaining ≤ s.remaining := by
  induction schedule generalizing s with
  | nil =>
    obtain rfl := Option.some.inj h
    simp
  | cons step schedule ih =>
    obtain ⟨p, r⟩ := step
    obtain ⟨u, hu, h⟩ := follow_cons h
    have hlt := remaining_step hu
    have hle := ih h
    rw [List.length_cons]
    omega

/-- No schedule of the invocations is longer than six steps for each of them, whatever the
outcomes; where it can go no further every invocation is out and the lock is free. -/
theorem invocations_come_to_an_end {schedule : List (ι × StepEnd)}
    (h : follow lock_path start schedule = some s) :
    schedule.length ≤ 6 * Fintype.card ι ∧
      ((∀ p r, s.step lock_path p r = none) →
        (∀ p, s.stage p = .crashed ∨ ∃ raising, s.stage p = .ended raising) ∧
          s.holder = none) := by
  constructor
  · have hle := length_le_remaining h
    have hstart : (start : LockSystem ι).remaining = 6 * Fintype.card ι := by
      simp [remaining, start, LockStage.rest, mul_comm]
    omega
  · intro hstuck
    have hout (p : ι) : (s.stage p).running = false := by
      cases hp : (s.stage p).running with
      | false => rfl
      | true =>
        obtain ⟨u, hu⟩ := step_running lock_path hp .crashes
        rw [hstuck p .crashes] at hu
        cases hu
    refine ⟨fun p => ?_, ?_⟩
    · have hp := hout p
      cases hg : s.stage p with
      | ended raising => exact .inr ⟨raising, rfl⟩
      | crashed => exact .inl rfl
      | _ =>
        rw [hg] at hp
        cases hp
    · cases ha : s.holder with
      | none => rfl
      | some a =>
        obtain ⟨p, hp⟩ := Held.start.runs (follow_runs h) a ha
        have hrunning := LockStage.running_of_fd hp
        rw [hout p] at hrunning
        cases hrunning

theorem invocations_come_to_an_end_two : ∃ s : LockSystem Bool,
    follow LockConfig.default.file start [(true, .crashes), (false, .fails (.os "EROFS"))] =
      some s ∧ s.holder = none := by
  have h : follow LockConfig.default.file start
      [(true, StepEnd.crashes), (false, .fails (.os "EROFS"))] =
        some ((start.set true .crashed).set false (.ended (some (.os "EROFS")))) := rfl
  exact ⟨_, h, ((invocations_come_to_an_end h).2 (fun p r => by cases p <;> rfl)).2⟩

end

section

variable {σ : Type}

/-- A step of the invocations that share what the lock guards: one that concerns the lock, or one
that a process takes in the body. -/
inductive SharedStep (Work : ι → σ → σ → Prop) (lock_path : PurePath) :
    LockSystem ι × σ → LockSystem ι × σ → Prop where
  | lock {s s' : LockSystem ι} {p : ι} {r : StepEnd} (x : σ)
      (h : s.step lock_path p r = some s') : SharedStep Work lock_path (s, x) (s', x)
  | work {s : LockSystem ι} {p : ι} {x y : σ} (hin : s.InBody p) (h : Work p x y) :
      SharedStep Work lock_path (s, x) (s, y)

/-- The work of some processes, one after the other. -/
inductive Serial (Work : ι → σ → σ → Prop) : List ι → σ → σ → Prop where
  | nil (x : σ) : Serial Work [] x x
  | next {ps : List ι} {p : ι} {x y z : σ} (h : Serial Work ps x y)
      (hwork : Relation.ReflTransGen (Work p) y z) : Serial Work (ps ++ [p]) x z

omit [DecidableEq ι] in
/-- The last process goes on with its work. -/
theorem Serial.work {Work : ι → σ → σ → Prop} {ps : List ι} {p : ι} {x y z : σ}
    (h : Serial Work ps x y) (hlast : ps.getLast? = some p) (hwork : Work p y z) :
    Serial Work ps x z := by
  cases h with
  | nil => cases hlast
  | @next ps q _ u _ h hq =>
    rw [List.getLast?_concat] at hlast
    obtain rfl := Option.some.inj hlast
    exact h.next (hq.tail hwork)

/-- The works so far are those of `ps`, who have all been let in, and whoever is in the body is
the last of them. -/
structure InTurn (Work : ι → σ → σ → Prop) (x : σ) (c : LockSystem ι × σ) (ps : List ι) :
    Prop where
  apart : Apart c.1
  nodup : ps.Nodup
  serial : Serial Work ps x c.2
  last : ∀ p, c.1.InBody p → ps.getLast? = some p
  past : ∀ p ∈ ps, (c.1.stage p).past = true

variable {Work : ι → σ → σ → Prop} {x y : σ} {ps : List ι}

theorem InTurn.lock_step (h : InTurn Work x (s, y) ps)
    (hstep : s.step lock_path p r = some s') : ∃ ps', InTurn Work x (s', y) ps' := by
  obtain ⟨hothers, hdoes⟩ := step_cases hstep
  have hapart := h.apart.step hstep
  have hpast : ∀ q ∈ ps, (s'.stage q).past = true := by
    intro q hq
    by_cases hqp : q = p
    · rw [hqp] at hq ⊢
      exact (step_forward hstep).2 (h.past p hq)
    · rw [hothers q hqp]
      exact h.past q hq
  have hstay (hout : ¬ s'.InBody p) : InTurn Work x (s', y) ps := by
    refine ⟨hapart, h.nodup, h.serial, fun q hq => h.last q ?_, hpast⟩
    obtain ⟨a, ha⟩ := hq
    have hqp : q ≠ p := fun he => hout ⟨a, he ▸ ha⟩
    exact ⟨a, hothers q hqp ▸ ha⟩
  cases hdoes with
  | opens hfd hopened hholder hout => exact ⟨ps, hstay hout⟩
  | quiet hfd hholder hopened hout hnew => exact ⟨ps, hstay hout⟩
  | frees hfd hholder hopened hout hnew => exact ⟨ps, hstay hout⟩
  | granted a hat hfree hin hholder hopened =>
    -- the next in turn, who has not been in before
    have hnew : p ∉ ps := by
      intro hp
      have hp' := h.past p hp
      rw [hat] at hp'
      cases hp'
    refine ⟨ps ++ [p], hapart, ?_, h.serial.next .refl, fun q ⟨b, hq⟩ => ?_, fun q hq => ?_⟩
    · rw [List.nodup_append_comm, List.singleton_append, List.nodup_cons]
      exact ⟨hnew, h.nodup⟩
    · rw [List.getLast?_concat]
      have hab : some b = some a := (hapart.body q b hq).symm.trans hholder
      have hfd : (s'.stage q).fd = some a := by rw [hq]; exact hab
      rw [hapart.own q p a hfd (by rw [hin]; rfl)]
    · rcases List.mem_append.mp hq with hq | hq
      · exact hpast q hq
      · rw [List.mem_singleton.mp hq, hin]
        rfl

theorem InTurn.shared_step {c c' : LockSystem ι × σ} (h : InTurn Work x c ps)
    (hstep : SharedStep Work lock_path c c') : ∃ ps', InTurn Work x c' ps' := by
  cases hstep with
  | lock y hlock => exact h.lock_step hlock
  | work hin hwork =>
    exact ⟨ps, h.apart, h.nodup, h.serial.work (h.last _ hin) hwork, h.last, h.past⟩

/-- However the steps of the invocations interleave, also those inside their bodies: what became
of what the lock guards is the work of some of them, one after the other and each once, all of
whom have been let in; whoever is in the body is the last. -/
theorem bodies_are_serial
    (h : Relation.ReflTransGen (SharedStep Work lock_path) (start, x) (s, y)) :
    ∃ ps : List ι, ps.Nodup ∧ Serial Work ps x y ∧ (∀ p, s.InBody p → ps.getLast? = some p) ∧
      ∀ p ∈ ps, (s.stage p).past = true := by
  have hturn : ∀ c : LockSystem ι × σ,
      Relation.ReflTransGen (SharedStep Work lock_path) (start, x) c →
        ∃ ps, InTurn Work x c ps := by
    intro c hc
    induction hc with
    | refl =>
      refine ⟨[], Apart.start, List.nodup_nil, .nil x, fun p ⟨a, ha⟩ => ?_, by simp⟩
      cases ha
    | tail _ hstep ih =>
      obtain ⟨ps, hps⟩ := ih
      exact hps.shared_step hstep
  obtain ⟨ps, hps⟩ := hturn (s, y) h
  exact ⟨ps, hps.nodup, hps.serial, hps.last, hps.past⟩

end

/-- Both processes work on one list, the second after the death of the first. -/
theorem bodies_are_serial_two : ∃ ps : List Bool, ps.Nodup ∧
    Serial (fun p x y => y = x ++ [p]) ps [] [true, false] := by
  have hlock : ∀ (p : Bool) (r : StepEnd) (s s' : LockSystem Bool) (x : List Bool),
      s.step LockConfig.default.file p r = some s' →
      Relation.ReflTransGen (SharedStep (fun p x y => y = x ++ [p]) LockConfig.default.file)
        (s, x) (s', x) := fun p r s s' x h => .single (.lock x h)
  have h₁ := hlock true .succeeds start _ [] rfl
  have h₂ := (h₁.trans (hlock true .succeeds _ _ [] rfl)).trans (hlock true .succeeds _ _ [] rfl)
  have h₃ := (h₂.tail (.work (p := true) ⟨0, rfl⟩ rfl)).trans (hlock true .crashes _ _ _ rfl)
  have h₄ := (h₃.trans (hlock false .succeeds _ _ _ rfl)).trans
    (hlock false .succeeds _ _ _ rfl)
  have h₅ := (h₄.trans (hlock false .succeeds _ _ _ rfl)).tail (.work (p := false) ⟨1, rfl⟩ rfl)
  obtain ⟨ps, hnodup, hserial, -⟩ := bodies_are_serial h₅
  exact ⟨ps, hnodup, hserial⟩

end LockSystem

end MbKeeper
