import MbKeeper.Local
import MbKeeper.Processes

/-!
# Pipelines and their traces

A pipeline runs the steps of an invocation one after the other and keeps a
trace: each step is noted when it is called and again when it has returned or
raised, and so is the way a backup process ended. The trace is what a statement
about the order of effects is about; no modelled function reads it.
-/
namespace MbKeeper

inductive Phase where
  | backup
  | prepare
  deriving DecidableEq, Repr

inductive HookPoint where
  | pre_backup
  | post_backup
  | pre_purge
  | post_run
  deriving DecidableEq, Repr

/-- A step of an invocation. -/
inductive Call where
  | lock
  | backup_id
  | replication
  /-- A hook, with what it gets on its standard input. -/
  | hook (point : HookPoint) (payload : Option String)
  | cleanup
  | make_target
  | phase (p : Phase)
  | write_meta
  | build (dest : DestinationConfig)
  | store (dest : DestinationConfig)
  | remove_target
  | list (dest : DestinationConfig)
  | plan (dest : DestinationConfig)
  | delete (dest : DestinationConfig) (backup_id : String)

inductive Event where
  | call (c : Call)
  | returned (c : Call)
  | raised (c : Call) (e : Exn)
  /-- The process of a phase ended, or was ended when it ran into its timeout. -/
  | ended (p : Phase) (timedOut : Bool) (returncode : ℤ) (stderr : String)

structure Pipe where
  world : World
  trace : List Event

abbrev Pipeline := Prog Pipe Exn

variable {α β : Type}

namespace Pipe

def note (s : Pipe) (e : Event) : Pipe := { s with trace := s.trace ++ [e] }

@[simp] theorem world_note (s : Pipe) (e : Event) : (s.note e).world = s.world := rfl

@[simp] theorem trace_note (s : Pipe) (e : Event) : (s.note e).trace = s.trace ++ [e] := rfl

end Pipe

def lift (m : Io α) : Pipeline α :=
  ExceptT.mk (fun s => ((exec m s.world).1, { s with world := (exec m s.world).2 }))

def note (e : Event) : Pipeline Unit := modify (·.note e)

/-- The step `c` is `m`. -/
def noted (c : Call) (m : Pipeline α) : Pipeline α := ExceptT.mk (fun s =>
  match exec m (s.note (.call c)) with
  | (.ok a, s') => (.ok a, s'.note (.returned c))
  | (.error e, s') => (.error e, s'.note (.raised c e)))

def perform (c : Call) (m : Io α) : Pipeline α := noted c (lift m)

theorem exec_lift (m : Io α) (s : Pipe) : exec (lift m) s =
    ((exec m s.world).1, { s with world := (exec m s.world).2 }) := rfl

theorem exec_noted (c : Call) (m : Pipeline α) (s : Pipe) : exec (noted c m) s =
    match exec m (s.note (.call c)) with
    | (.ok a, s') => (.ok a, s'.note (.returned c))
    | (.error e, s') => (.error e, s'.note (.raised c e)) := rfl

theorem exec_perform (c : Call) (m : Io α) (s : Pipe) : exec (perform c m) s =
    match exec m s.world with
    | (.ok a, w) => (.ok a, ⟨w, s.trace ++ [.call c, .returned c]⟩)
    | (.error e, w) => (.error e, ⟨w, s.trace ++ [.call c, .raised c e]⟩) := by
  rw [perform, exec_noted, exec_lift]
  rcases h : exec m s.world with ⟨e | a, w⟩ <;> simp [h, Pipe.note]

theorem exec_perform_ok {c : Call} {m : Io α} {s s' : Pipe} {a : α}
    (h : exec (perform c m) s = (.ok a, s')) :
    exec m s.world = (.ok a, s'.world) ∧ s'.trace = s.trace ++ [.call c, .returned c] := by
  rw [exec_perform] at h
  rcases hm : exec m s.world with ⟨e | b, w⟩
  · rw [hm] at h
    cases h
  · rw [hm] at h
    obtain ⟨hb, rfl⟩ := Prod.mk.inj h
    exact ⟨by rw [Except.ok.inj hb], rfl⟩

theorem exec_perform_error {c : Call} {m : Io α} {s s' : Pipe} {e : Exn}
    (h : exec (perform c m) s = (.error e, s')) :
    exec m s.world = (.error e, s'.world) ∧ s'.trace = s.trace ++ [.call c, .raised c e] := by
  rw [exec_perform] at h
  rcases hm : exec m s.world with ⟨e' | b, w⟩
  · rw [hm] at h
    obtain ⟨he, rfl⟩ := Prod.mk.inj h
    obtain rfl := Except.error.inj he
    exact ⟨rfl, rfl⟩
  · rw [hm] at h
    cases h

/-- `R` holds between the worlds. -/
def OnWorld (R : World → World → Prop) (s s' : Pipe) : Prop := R s.world s'.world

instance (R : World → World → Prop) [Std.Refl R] : Std.Refl (OnWorld R) :=
  ⟨fun s => refl_of R s.world⟩

instance (R : World → World → Prop) [IsTrans World R] : IsTrans Pipe (OnWorld R) :=
  ⟨fun _ _ _ h h' => trans_of R h h'⟩

namespace Moves

variable {R : World → World → Prop}

theorem lift {m : Io α} (h : Moves R m) : Moves (OnWorld R) (lift m) := fun s => h s.world

theorem note [Std.Refl R] (e : Event) : Moves (OnWorld R) (note e) := fun s => refl_of R s.world

theorem noted {m : Pipeline α} (h : Moves (OnWorld R) m) (c : Call) :
    Moves (OnWorld R) (noted c m) := by
  intro s
  have hm := h (s.note (.call c))
  rw [exec_noted]
  rcases hr : exec m (s.note (.call c)) with ⟨e | a, s'⟩
  · rw [hr] at hm
    exact hm
  · rw [hr] at hm
    exact hm

theorem perform {m : Io α} (h : Moves R m) (c : Call) : Moves (OnWorld R) (perform c m) :=
  h.lift.noted c

end Moves

/-- Only events of `E` were added. -/
def Adds (E : Event → Prop) (s s' : Pipe) : Prop :=
  ∃ new, s'.trace = s.trace ++ new ∧ ∀ e ∈ new, E e

namespace Adds

variable {E E' : Event → Prop}

instance : Std.Refl (Adds E) := ⟨fun s => ⟨[], by simp, by simp⟩⟩

instance : IsTrans Pipe (Adds E) := ⟨fun _ _ _ ⟨l, hl, hE⟩ ⟨l', hl', hE'⟩ =>
  ⟨l ++ l', by rw [hl', hl, List.append_assoc], fun e he =>
    (List.mem_append.mp he).elim (hE e) (hE' e)⟩⟩

theorem mono {s s' : Pipe} (h : Adds E s s') (hE : ∀ e, E e → E' e) : Adds E' s s' :=
  h.imp (fun _ hnew => ⟨hnew.1, fun e he => hE e (hnew.2 e he)⟩)

theorem lift (m : Io α) : Moves (Adds E) (lift m) := fun s => ⟨[], by simp [exec_lift], by simp⟩

theorem note {e : Event} (he : E e) : Moves (Adds E) (note e) :=
  fun s => ⟨[e], rfl, by simpa using he⟩

theorem noted {c : Call} {m : Pipeline α} (hm : Moves (Adds E) m) (hc : E (.call c))
    (hr : E (.returned c)) (he : ∀ e, E (.raised c e)) : Moves (Adds E) (noted c m) := by
  intro s
  obtain ⟨new, hnew, hE⟩ := hm (s.note (.call c))
  rw [exec_noted]
  rcases hx : exec m (s.note (.call c)) with ⟨e | a, s'⟩
  · rw [hx] at hnew
    refine ⟨.call c :: new ++ [.raised c e], by simp_all, ?_⟩
    simp only [List.cons_append, List.forall_mem_cons, List.forall_mem_append]
    exact ⟨hc, hE, by simpa using he e⟩
  · rw [hx] at hnew
    refine ⟨.call c :: new ++ [.returned c], by simp_all, ?_⟩
    simp only [List.cons_append, List.forall_mem_cons, List.forall_mem_append]
    exact ⟨hc, hE, by simpa using hr⟩

theorem perform {c : Call} {m : Io α} (hc : E (.call c)) (hr : E (.returned c))
    (he : ∀ e, E (.raised c e)) : Moves (Adds E) (perform c m) := noted (lift m) hc hr he

end Adds

end MbKeeper
