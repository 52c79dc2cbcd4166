import MbKeeper.Destinations
import MbKeeper.PurgeEffects

/-!
# The trace of a run

Each stage of a run adds its own events and no others. The lemmas of the first
part say which, stage by stage; what a run may do and when is then read off the
order of the stages. A `Trial` is one store of the loop over the destinations
with what came of it.
-/
namespace MbKeeper

variable {α : Type} {site : Site} {config : Config} {dest : DestinationConfig} {now : Datetime}
  {s s' : Pipe}

/-- The event belongs to a call with `C`. -/
def Event.On (C : Call → Prop) : Event → Prop
  | .call c | .returned c | .raised c _ => C c
  | .ended .. => False

theorem Event.On.mono {C C' : Call → Prop} (h : ∀ c, C c → C' c) {e : Event} (he : e.On C) :
    e.On C' := by
  cases e with
  | call c => exact h c he
  | returned c => exact h c he
  | raised c x => exact h c he
  | ended => exact he

theorem perform_adds (c : Call) (m : Io α) : Moves (Adds (Event.On (· = c))) (perform c m) :=
  Adds.perform rfl rfl (fun _ => rfl)

theorem perform_adds_of {C : Call → Prop} {c : Call} (hc : C c) (m : Io α) :
    Moves (Adds (Event.On C)) (perform c m) :=
  (perform_adds c m).mono (fun _ _ h => h.mono (fun _ he => he.mono (fun _ hx => hx ▸ hc)))

/-- What a phase leaves in the trace when it succeeded. -/
def phaseEvents (p : Phase) (stderr : String) : List Event :=
  [.call (.phase p), .ended p false 0 stderr, .returned (.phase p)]

/-- Events of the two phases. -/
def Event.OfPhase (e : Event) : Prop :=
  e.On (fun c => ∃ p, c = .phase p) ∨ ∃ p t code stderr, e = .ended p t code stderr

/-- Of its own a process adds only how it ended. -/
theorem execute_adds (runner : MariabackupRunner) (argv : List Toml) (target_dir : Path)
    (p : Phase) : Moves (Adds (fun e => ∃ t code stderr, e = .ended p t code stderr))
      (runner.execute argv target_dir p) :=
  Moves.bind (Adds.lift _) (fun _ => Moves.bind (Adds.lift _) (fun _ =>
    Moves.bind (Adds.note ⟨_, _, _, rfl⟩) (fun _ => Moves.bind (Adds.lift _)
      (fun _ => Adds.lift _))))

theorem phase_adds (runner : MariabackupRunner) (argv : List Toml) (target_dir : Path)
    (p : Phase) :
    Moves (Adds Event.OfPhase) (noted (.phase p) (runner.execute argv target_dir p)) :=
  Adds.noted ((execute_adds runner argv target_dir p).mono (fun _ _ h =>
    h.mono (fun _ ⟨t, code, stderr, he⟩ => .inr ⟨p, t, code, stderr, he⟩)))
    (.inl ⟨p, rfl⟩) (.inl ⟨p, rfl⟩) (fun _ => .inl ⟨p, rfl⟩)

/-- A phase that returned ended without a timeout, with the status zero and with the marker. -/
theorem phase_ok {runner : MariabackupRunner} {argv : List Toml} {target_dir : Path} {p : Phase}
    (h : exec (noted (.phase p) (runner.execute argv target_dir p)) s = (.ok (), s')) :
    ∃ stderr, marked stderr = true ∧ s'.trace = s.trace ++ phaseEvents p stderr := by
  rw [exec_noted] at h
  rcases hx : exec (runner.execute argv target_dir p) (s.note (.call (.phase p))) with ⟨e | _, u⟩
  · rw [hx] at h
    cases h
  · rw [hx] at h
    obtain ⟨-, rfl⟩ := Prod.mk.inj h
    obtain ⟨_, v₁, h₁, hx⟩ := exec_bind_eq_ok hx
    obtain ⟨proc, v₂, h₂, hx⟩ := exec_bind_eq_ok hx
    obtain ⟨_, v₃, h₃, hx⟩ := exec_bind_eq_ok hx
    obtain ⟨_, v₄, h₄, h₅⟩ := exec_bind_eq_ok hx
    have htrace {β : Type} {m : Io β} {a : Except Exn β} {x y : Pipe}
        (hl : exec (lift m) x = (a, y)) : y.trace = x.trace := by
      rw [exec_lift] at hl
      rw [← (Prod.mk.inj hl).2]
    have hnote : v₃.trace = v₂.trace ++ [.ended p proc.timedOut proc.returncode proc.stderr] := by
      have := (Prod.mk.inj h₃).2
      rw [← this]
      rfl
    have hverdict : proc.timedOut = false ∧ proc.returncode = 0 ∧ marked proc.stderr = true := by
      rw [exec_lift] at h₅
      have hv := (Prod.mk.inj h₅).1
      rw [MariabackupRunner.verdict] at hv
      split_ifs at hv with ht hc
      · cases hv
      · cases hv
      · have hgood := not_or.mp hc
        exact ⟨by simpa using ht, by simpa using hgood.1, by simpa using hgood.2⟩
    obtain ⟨ht, hc, hm⟩ := hverdict
    refine ⟨proc.stderr, hm, ?_⟩
    rw [Pipe.trace_note, htrace h₅, htrace h₄, hnote, htrace h₂, htrace h₁, ht, hc]
    simp [phaseEvents]

/-- What the phases leave in the trace when they succeeded. -/
def backupEvents (config : Config) (stderr stderr' : String) : List Event :=
  phaseEvents .backup stderr ++
    (if config.backup.prepare then phaseEvents .prepare stderr' else [])

theorem phases_adds (target_dir : Path) :
    Moves (Adds Event.OfPhase) (phases config target_dir) := by
  refine Moves.tryCatch (Moves.bind (phase_adds _ _ _ _) (fun _ => Moves.bind ?_ (fun _ =>
    Moves.pure _))) (fun e => ?_)
  · exact Moves.ite (phase_adds _ _ _ _) (Moves.pure _)
  · split
    · exact Moves.pure _
    · exact Moves.throw _

theorem phases_ok {target_dir : Path} (h : exec (phases config target_dir) s = (.ok none, s')) :
    ∃ stderr stderr', marked stderr = true ∧ marked stderr' = true ∧
      s'.trace = s.trace ++ backupEvents config stderr stderr' := by
  rw [phases, exec_tryCatch] at h
  rcases hx : exec (do
      (⟨config.backup, config.replication⟩ : MariabackupRunner).run_backup target_dir
      run_prepare_if config target_dir
      pure none : Pipeline (Option String)) s with ⟨e | r, u⟩
  · rw [hx] at h
    cases e <;> cases h
  · rw [hx] at h
    obtain ⟨-, rfl⟩ := Prod.mk.inj h
    obtain ⟨_, v₁, h₁, hx⟩ := exec_bind_eq_ok hx
    obtain ⟨_, v₂, h₂, hx⟩ := exec_bind_eq_ok hx
    obtain ⟨-, rfl⟩ := exec_pure_eq_ok hx
    obtain ⟨stderr, hm, ht⟩ := phase_ok h₁
    rw [run_prepare_if] at h₂
    split_ifs at h₂ with hp
    · obtain ⟨stderr', hm', ht'⟩ := phase_ok h₂
      exact ⟨stderr, stderr', hm, hm', by rw [ht', ht, backupEvents, if_pos hp, List.append_assoc]⟩
    · obtain ⟨-, rfl⟩ := exec_pure_eq_ok h₂
      exact ⟨stderr, stderr, hm, hm, by rw [ht, backupEvents, if_neg hp, List.append_nil]⟩

/-- One store, and the text of its `DestinationError` when it failed. -/
structure Trial where
  dest : DestinationConfig
  error : Option String

namespace Trial

def outcome (t : Trial) : DestinationOutcome := ⟨t.dest.name, t.error.isNone, t.error.getD ""⟩

def events (t : Trial) : List Event :=
  [.call (.store t.dest), match t.error with
    | none => .returned (.store t.dest)
    | some message => .raised (.store t.dest) (.destination message)]

end Trial

/-- The stores that are tried, in the order of the destinations: all of them, or up to the first
failure when a failure aborts. -/
inductive Attempted (policy : String) : List DestinationConfig → List Trial → Prop where
  | done : Attempted policy [] []
  | stored {dest : DestinationConfig} {dests : List DestinationConfig} {trials : List Trial}
      (rest : Attempted policy dests trials) :
      Attempted policy (dest :: dests) (⟨dest, none⟩ :: trials)
  | failed {dest : DestinationConfig} {dests : List DestinationConfig} {trials : List Trial}
      {message : String} (hpolicy : policy ≠ "abort") (rest : Attempted policy dests trials) :
      Attempted policy (dest :: dests) (⟨dest, some message⟩ :: trials)
  | aborted {dest : DestinationConfig} {dests : List DestinationConfig} {message : String}
      (hpolicy : policy = "abort") : Attempted policy (dest :: dests) [⟨dest, some message⟩]

namespace Attempted

variable {policy : String} {dests : List DestinationConfig} {trials : List Trial}

theorem dests_prefix (h : Attempted policy dests trials) : trials.map (·.dest) <+: dests := by
  induction h with
  | done => exact List.prefix_refl _
  | stored _ ih => exact List.prefix_cons_inj _ |>.mpr ih
  | failed _ _ ih => exact List.prefix_cons_inj _ |>.mpr ih
  | aborted => exact ⟨_, rfl⟩

theorem dests_eq (h : Attempted policy dests trials) (hpolicy : policy ≠ "abort") :
    trials.map (·.dest) = dests := by
  induction h with
  | done => rfl
  | stored _ ih => rw [List.map_cons, ih]
  | failed _ _ ih => rw [List.map_cons, ih]
  | aborted h => exact absurd h hpolicy

/-- When a failure aborts, only the last trial can be one. -/
theorem abort_cases (h : Attempted policy dests trials) (hpolicy : policy = "abort") :
    (trials.map (·.dest) = dests ∧ ∀ t ∈ trials, t.error = none) ∨
      ∃ good bad, trials = good ++ [bad] ∧ (∀ t ∈ good, t.error = none) ∧ bad.error ≠ none := by
  induction h with
  | done => exact .inl ⟨rfl, by simp⟩
  | @stored dest _ trials _ ih =>
    rcases ih with ⟨hall, hstored⟩ | ⟨good, bad, rfl, hgood, hbad⟩
    · exact .inl ⟨by rw [List.map_cons, hall], by simpa using hstored⟩
    · exact .inr ⟨⟨dest, none⟩ :: good, bad, rfl, by simpa using hgood, hbad⟩
  | failed h _ _ => exact absurd hpolicy h
  | @aborted dest _ message _ => exact .inr ⟨[], ⟨dest, some message⟩, rfl, by simp, by simp⟩

/-- When no store failed, every destination was tried. -/
theorem dests_eq_of_stored (h : Attempted policy dests trials)
    (hall : ∀ t ∈ trials, t.error = none) : trials.map (·.dest) = dests := by
  induction h with
  | done => rfl
  | stored _ ih => rw [List.map_cons, ih (fun t ht => hall t (List.mem_cons_of_mem _ ht))]
  | failed _ _ _ => exact absurd (hall _ List.mem_cons_self) (by simp)
  | aborted _ => exact absurd (hall _ List.mem_cons_self) (by simp)

theorem ne_nil (h : Attempted policy dests trials) (hne : dests ≠ []) : trials ≠ [] := by
  cases h with
  | done => exact absurd rfl hne
  | stored => simp
  | failed => simp
  | aborted => simp

end Attempted

theorem attempt_store_cases {m : Io Unit} {res : Except Exn (Except String Unit)}
    (h : exec (attempt (perform (.store dest) m)) s = (res, s')) :
    (∃ error, (res = .ok (match error with | none => .ok () | some message => .error message)) ∧
      s'.trace = s.trace ++ (Trial.mk dest error).events) ∨
      ∃ e, res = .error e := by
  rcases attempt_cases h with ⟨_, hm, rfl⟩ | ⟨message, hm, rfl⟩ | ⟨e, -, -, rfl⟩
  · exact .inl ⟨none, rfl, (exec_perform_ok hm).2⟩
  · exact .inl ⟨some message, rfl, (exec_perform_error hm).2⟩
  · exact .inr ⟨e, rfl⟩

theorem store_to_destinations_adds (target_dir : Path) (backup_id : String)
    (dests : List DestinationConfig) :
    Moves (Adds (Event.On (fun c => ∃ d ∈ dests, c = .store d)))
      (store_to_destinations site config target_dir backup_id dests) := by
  induction dests with
  | nil => exact Moves.pure _
  | cons dest dests ih =>
    have hrest : Moves (Adds (Event.On (fun c => ∃ d ∈ dest :: dests, c = .store d))) _ := ih.mono
      (fun _ _ h => h.mono (fun _ he => he.mono (fun _ ⟨d, hd, hc⟩ =>
        ⟨d, List.mem_cons_of_mem _ hd, hc⟩)))
    refine Moves.bind (attempt_moves (perform_adds_of ⟨dest, List.mem_cons_self, rfl⟩ _))
      (fun stored => ?_)
    cases stored with
    | error message => exact Moves.ite (Moves.pure _) (Moves.bind hrest (fun _ => Moves.pure _))
    | ok _ => exact Moves.bind hrest (fun _ => Moves.pure _)

/-- A loop over the destinations that ends has tried them by the policy. -/
theorem store_to_destinations_ok {target_dir : Path} {backup_id : String}
    {dests : List DestinationConfig} {outcomes : List DestinationOutcome}
    (h : exec (store_to_destinations site config target_dir backup_id dests) s =
      (.ok outcomes, s')) :
    ∃ trials, Attempted config.transfer.on_destination_failure dests trials ∧
      outcomes = trials.map Trial.outcome ∧ s'.trace = s.trace ++ trials.flatMap Trial.events := by
  induction dests generalizing s s' outcomes with
  | nil =>
    obtain ⟨rfl, rfl⟩ := exec_pure_eq_ok h
    exact ⟨[], .done, rfl, by simp⟩
  | cons dest dests ih =>
    obtain ⟨stored, u, hu, h⟩ := exec_bind_eq_ok h
    rcases attempt_store_cases hu with ⟨error, hres, hevents⟩ | ⟨e, he⟩
    · cases error with
      | none =>
        obtain rfl := Except.ok.inj hres
        obtain ⟨rest, v, hv, h⟩ := exec_bind_eq_ok h
        obtain ⟨rfl, rfl⟩ := exec_pure_eq_ok h
        obtain ⟨trials, hatt, rfl, htrace⟩ := ih hv
        exact ⟨⟨dest, none⟩ :: trials, hatt.stored, rfl, by
          rw [htrace, hevents, List.flatMap_cons, List.append_assoc]⟩
      | some message =>
        obtain rfl := Except.ok.inj hres
        dsimp only at h
        split_ifs at h with hpolicy
        · obtain ⟨rfl, rfl⟩ := exec_pure_eq_ok h
          exact ⟨[⟨dest, some message⟩], .aborted hpolicy, rfl, by simpa using hevents⟩
        · obtain ⟨rest, v, hv, h⟩ := exec_bind_eq_ok h
          obtain ⟨rfl, rfl⟩ := exec_pure_eq_ok h
          obtain ⟨trials, hatt, rfl, htrace⟩ := ih hv
          exact ⟨⟨dest, some message⟩ :: trials, hatt.failed hpolicy, rfl, by
            rw [htrace, hevents, List.flatMap_cons, List.append_assoc]⟩
    · cases he

/-- A listing or a delete that failed. -/
def Event.PurgeFailure : Event → Prop
  | .raised (.list _) _ | .raised (.delete _ _) _ => True
  | _ => False

/-- The destinations that were listed, in order. -/
def listCalls (trace : List Event) : List DestinationConfig :=
  trace.filterMap (fun
    | .call (.list dest) => some dest
    | _ => none)

theorem listCalls_append (l l' : List Event) : listCalls (l ++ l') = listCalls l ++ listCalls l' :=
  List.filterMap_append

/-- The calls of the purge of one destination. -/
def Call.Purges (dest : DestinationConfig) : Call → Prop
  | .list d | .plan d | .delete d _ => d = dest
  | _ => False

theorem Call.purges_list (dest : DestinationConfig) : (Call.list dest).Purges dest := rfl

theorem Call.purges_plan (dest : DestinationConfig) : (Call.plan dest).Purges dest := rfl

theorem Call.purges_delete (dest : DestinationConfig) (backup_id : String) :
    (Call.delete dest backup_id).Purges dest := rfl

/-- What a part of a purge that ended added to the trace: events of calls with `C` only, the
listings of `listed`, and a failure exactly if it reports one. -/
def Reports (C : Call → Prop) (listed : List DestinationConfig) (had_error : Bool) (s s' : Pipe) :
    Prop :=
  ∃ new, s'.trace = s.trace ++ new ∧ listCalls new = listed ∧
    (had_error = true ↔ ∃ e ∈ new, e.PurgeFailure) ∧ ∀ e ∈ new, e.On C

namespace Reports

variable {C C' : Call → Prop} {listed listed' : List DestinationConfig} {b b' : Bool} {u : Pipe}

theorem refl (s : Pipe) : Reports C [] false s s := ⟨[], by simp, rfl, by simp, by simp⟩

theorem trans (h : Reports C listed b s u) (h' : Reports C listed' b' u s') :
    Reports C (listed ++ listed') (b || b') s s' := by
  obtain ⟨new, htrace, hlist, hfail, hon⟩ := h
  obtain ⟨new', htrace', hlist', hfail', hon'⟩ := h'
  refine ⟨new ++ new', by rw [htrace', htrace, List.append_assoc], ?_, ?_, ?_⟩
  · rw [listCalls_append, hlist, hlist']
  · rw [Bool.or_eq_true, hfail, hfail']
    constructor
    · rintro (⟨e, he, hf⟩ | ⟨e, he, hf⟩)
      · exact ⟨e, List.mem_append_left _ he, hf⟩
      · exact ⟨e, List.mem_append_right _ he, hf⟩
    · rintro ⟨e, he, hf⟩
      exact (List.mem_append.mp he).imp (fun he => ⟨e, he, hf⟩) (fun he => ⟨e, he, hf⟩)
  · intro e he
    exact (List.mem_append.mp he).elim (hon e) (hon' e)

theorem mono (h : Reports C listed b s s') (hC : ∀ c, C c → C' c) : Reports C' listed b s s' := by
  obtain ⟨new, htrace, hlist, hfail, hon⟩ := h
  exact ⟨new, htrace, hlist, hfail, fun e he => (hon e he).mono hC⟩

/-- A step that is no listing and returned. -/
theorem of_returned {c : Call} (hc : C c) (hlist : ∀ d, c ≠ .list d)
    (h : s'.trace = s.trace ++ [.call c, .returned c]) : Reports C [] false s s' := by
  refine ⟨_, h, ?_, by simp [Event.PurgeFailure], by simpa [Event.On] using hc⟩
  cases c with
  | list d => exact absurd rfl (hlist d)
  | _ => rfl

end Reports

theorem delete_one_ok {D : Destination} {dry_run : Bool} {backup_id : String}
    {outcome : Except String Unit}
    (h : exec (delete_one dest D dry_run backup_id) s = (.ok outcome, s')) :
    Reports (Call.Purges dest) [] (match outcome with | .ok () => false | .error _ => true)
      s s' := by
  rw [delete_one] at h
  split_ifs at h with hdry
  · obtain ⟨rfl, rfl⟩ := exec_pure_eq_ok h
    exact Reports.refl _
  · rcases attempt_cases h with ⟨_, hm, hr⟩ | ⟨message, hm, hr⟩ | ⟨e, -, -, hr⟩
    · obtain rfl := Except.ok.inj hr
      exact Reports.of_returned (Call.purges_delete _ _) (by simp) (exec_perform_ok hm).2
    · obtain rfl := Except.ok.inj hr
      exact ⟨_, (exec_perform_error hm).2, rfl, by simp [Event.PurgeFailure],
        by simp [Event.On, Call.Purges]⟩
    · cases hr

theorem delete_planned_ok {D : Destination} {dry_run : Bool} {ids : List String}
    {res : List String × Bool}
    (h : exec (delete_planned dest D dry_run ids) s = (.ok res, s')) :
    Reports (Call.Purges dest) [] res.2 s s' := by
  induction ids generalizing s s' res with
  | nil =>
    obtain ⟨rfl, rfl⟩ := exec_pure_eq_ok h
    exact Reports.refl _
  | cons i ids ih =>
    obtain ⟨outcome, u, hu, h⟩ := exec_bind_eq_ok h
    obtain ⟨rest, v, hv, h⟩ := exec_bind_eq_ok h
    have hboth := (delete_one_ok hu).trans (ih hv)
    cases outcome with
    | ok _ =>
      obtain ⟨rfl, rfl⟩ := exec_pure_eq_ok h
      simpa using hboth
    | error message =>
      obtain ⟨rfl, rfl⟩ := exec_pure_eq_ok h
      simpa using hboth

theorem purge_one_ok {dry_run : Bool} {in_progress_id : Option String}
    {res : DestinationPurgeResult × Bool}
    (h : exec (purge_one_destination site config dest now dry_run in_progress_id) s =
      (.ok res, s')) : Reports (Call.Purges dest) [dest] res.2 s s' := by
  obtain ⟨listing, u, hu, h⟩ := exec_bind_eq_ok h
  rcases attempt_cases hu with ⟨stored, hm, hr⟩ | ⟨message, hm, hr⟩ | ⟨e, -, -, hr⟩
  · obtain rfl := Except.ok.inj hr
    have hlist : Reports (Call.Purges dest) [dest] false s u :=
      ⟨_, (exec_perform_ok hm).2, rfl, by simp [Event.PurgeFailure],
        by simp [Event.On, Call.Purges]⟩
    obtain ⟨plan, v, hv, h⟩ := exec_bind_eq_ok h
    obtain ⟨outcome, t, ht, h⟩ := exec_bind_eq_ok h
    obtain ⟨rfl, rfl⟩ := exec_pure_eq_ok h
    have hplan : Reports (Call.Purges dest) [] false u v :=
      Reports.of_returned (Call.purges_plan _) (by simp) (exec_perform_ok hv).2
    simpa using (hlist.trans hplan).trans (delete_planned_ok ht)
  · obtain rfl := Except.ok.inj hr
    obtain ⟨rfl, rfl⟩ := exec_pure_eq_ok h
    exact ⟨_, (exec_perform_error hm).2, rfl, by simp [Event.PurgeFailure],
      by simp [Event.On, Call.Purges]⟩
  · cases hr

theorem purge_stored_ok {backup_id : String} {outcomes : List DestinationOutcome}
    {dests : List DestinationConfig} {had_error : Bool}
    (hnamed : List.Forall₂ (fun o d => destination_named config o.name = .ok d) outcomes dests)
    (h : exec (purge_stored_destinations site config backup_id now outcomes) s =
      (.ok had_error, s')) :
    Reports (fun c => ∃ d ∈ dests, c.Purges d) dests had_error s s' := by
  induction hnamed generalizing s s' had_error with
  | nil =>
    obtain ⟨rfl, rfl⟩ := exec_pure_eq_ok h
    exact Reports.refl _
  | @cons outcome d outcomes dests hd _ ih =>
    obtain ⟨d', u, hu, hrest⟩ := exec_bind_eq_ok h
    rw [hd] at hu
    obtain ⟨he, rfl⟩ := Prod.mk.inj hu
    obtain rfl := Except.ok.inj he
    obtain ⟨first, v, hv, hrest⟩ := exec_bind_eq_ok hrest
    obtain ⟨rest, t, ht, hrest⟩ := exec_bind_eq_ok hrest
    obtain ⟨rfl, rfl⟩ := exec_pure_eq_ok hrest
    have hfirst : Reports (fun c => ∃ d' ∈ d :: dests, c.Purges d') _ _ _ _ :=
      (purge_one_ok hv).mono
      (fun c hc => ⟨d, List.mem_cons_self, hc⟩)
    exact hfirst.trans ((ih ht).mono (fun c ⟨d', hd', hc⟩ => ⟨d', List.mem_cons_of_mem _ hd', hc⟩))

theorem delete_planned_adds {D : Destination} (dry_run : Bool) (ids : List String) :
    Moves (Adds (Event.On (Call.Purges dest))) (delete_planned dest D dry_run ids) := by
  induction ids with
  | nil => exact Moves.pure _
  | cons i ids ih =>
    refine Moves.bind (Moves.ite (Moves.pure _) (attempt_moves
      (perform_adds_of (Call.purges_delete _ _) _))) (fun outcome => Moves.bind ih (fun rest => ?_))
    cases outcome <;> exact Moves.pure _

theorem purge_one_adds (dry_run : Bool) (in_progress_id : Option String) :
    Moves (Adds (Event.On (Call.Purges dest)))
      (purge_one_destination site config dest now dry_run in_progress_id) := by
  refine Moves.bind (attempt_moves (perform_adds_of (Call.purges_list _) _)) (fun listing => ?_)
  cases listing with
  | error message => exact Moves.pure _
  | ok stored =>
    exact Moves.bind (perform_adds_of (Call.purges_plan _) _) (fun plan =>
      Moves.bind (delete_planned_adds dry_run _) (fun _ => Moves.pure _))

/-- The calls of the purges of what is stored. -/
def PurgesStored (config : Config) (outcomes : List DestinationOutcome) (c : Call) : Prop :=
  ∃ o ∈ outcomes, ∃ d, destination_named config o.name = .ok d ∧ c.Purges d

theorem purge_stored_adds (backup_id : String) (outcomes : List DestinationOutcome) :
    Moves (Adds (Event.On (PurgesStored config outcomes)))
      (purge_stored_destinations site config backup_id now outcomes) := by
  induction outcomes with
  | nil => exact Moves.pure _
  | cons outcome outcomes ih =>
    have hrest : Moves (Adds (Event.On (PurgesStored config (outcome :: outcomes)))) _ := ih.mono
      (fun _ _ h => h.mono (fun _ he => he.mono (fun _ ⟨o, ho, hd⟩ =>
        ⟨o, List.mem_cons_of_mem _ ho, hd⟩)))
    intro s
    rw [purge_stored_destinations]
    cases hnamed : destination_named config outcome.name with
    | error e => exact Adds.lift _ s
    | ok d =>
      have hlift : exec (lift (liftExcept (.ok d : Except Exn DestinationConfig))) s = (.ok d, s) :=
        rfl
      rw [exec_bind_ok hlift]
      refine Moves.bind ((purge_one_adds false (some backup_id)).mono (fun _ _ h => ?_))
        (fun _ => Moves.bind hrest (fun _ => Moves.pure _)) s
      exact h.mono (fun _ he => he.mono (fun _ hc => ⟨outcome, List.mem_cons_self, d, hnamed, hc⟩))

theorem destination_named_of_mem (hnames : (config.destinations.map (·.name)).Nodup)
    (hd : dest ∈ config.destinations) : destination_named config dest.name = .ok dest := by
  rw [destination_named]
  cases hfind : config.destinations.reverse.find? (fun d => d.name = dest.name) with
  | none =>
    have := List.find?_eq_none.mp hfind dest (List.mem_reverse.mpr hd)
    simp at this
  | some d =>
    have hname := List.find?_some hfind
    have hmem := List.mem_reverse.mp (List.mem_of_find?_eq_some hfind)
    obtain rfl := List.inj_on_of_nodup_map hnames hmem hd (by simpa using hname)
    rfl

/-- The calls that reach a destination. -/
def Call.AtDestination : Call → Prop
  | .store _ | .list _ | .plan _ | .delete _ _ => True
  | _ => False

/-- The phase ended without a timeout, with the status zero and with the marker, and returned. -/
structure Succeeded (p : Phase) (trace : List Event) : Prop where
  ended : ∃ stderr, .ended p false 0 stderr ∈ trace
  good : ∀ t code stderr, .ended p t code stderr ∈ trace →
    t = false ∧ code = 0 ∧ marked stderr = true
  returned : .returned (.phase p) ∈ trace

/-- The phases that are configured succeeded. -/
structure Phased (config : Config) (trace : List Event) : Prop where
  backup : Succeeded .backup trace
  prepare : config.backup.prepare = true → Succeeded .prepare trace
  unraised : ∀ p e, .raised (.phase p) e ∉ trace

/-- The generation in the target directory is one to store. -/
structure Backed (config : Config) (trace : List Event) : Prop extends Phased config trace where
  manifest : .returned .write_meta ∈ trace

/-- The store of the destination returned. -/
structure StoredIn (dest : DestinationConfig) (trace : List Event) : Prop where
  returned : .returned (.store dest) ∈ trace
  unraised : ∀ e, .raised (.store dest) e ∉ trace

/-- What has to come before an event. -/
def Justified (config : Config) (before : List Event) : Event → Prop
  | .call (.store _) => Backed config before
  | .call .remove_target => Backed config before ∧ ∃ dest, .returned (.store dest) ∈ before
  | .call (.list dest) | .call (.delete dest _) | .call (.plan dest) =>
    Backed config before ∧ StoredIn dest before ∧ .returned .remove_target ∈ before
  | .raised (.phase _) _ => ∀ c : Call, c.AtDestination → .call c ∉ before
  | _ => True

/-- Every event of the trace has before it what it needs. -/
def Ordered (config : Config) (trace : List Event) : Prop :=
  ∀ before e after, trace = before ++ e :: after → Justified config before e

theorem Ordered.append {tr new : List Event} (h : Ordered config tr)
    (hnew : ∀ before e after, new = before ++ e :: after → Justified config (tr ++ before) e) :
    Ordered config (tr ++ new) := by
  intro before e after htrace
  rcases List.append_eq_append_iff.mp htrace with ⟨l, rfl, hl⟩ | ⟨l, rfl, hl⟩
  · exact hnew l e after hl
  · cases l with
    | nil => simpa using hnew [] e after (by simpa using hl.symm)
    | cons e' l =>
      obtain ⟨rfl, rfl⟩ := List.cons.inj hl
      exact h before e l rfl

/-- A stage whose events need no more than what came before the stage. -/
theorem Ordered.adds {E : Event → Prop} (h : Ordered config s.trace) (hadds : Adds E s s')
    (hE : ∀ new, (∀ x ∈ new, E x) → ∀ e, E e → Justified config (s.trace ++ new) e) :
    Ordered config s'.trace := by
  obtain ⟨new, htrace, hnew⟩ := hadds
  rw [htrace]
  refine h.append (fun before e after hsplit => hE before (fun x hx => ?_) e ?_)
  · exact hnew x (by rw [hsplit]; exact List.mem_append_left _ hx)
  · exact hnew e (by rw [hsplit]; simp)

/-- Calls that need nothing and are no phase. -/
def Call.Free : Call → Prop
  | .lock | .backup_id | .replication | .hook _ _ | .cleanup | .make_target | .write_meta
  | .build _ => True
  | _ => False

theorem justified_of_free {before : List Event} {e : Event} (he : e.On Call.Free) :
    Justified config before e := by
  cases e with
  | call c => cases c <;> trivial
  | returned c => trivial
  | raised c x => cases c <;> trivial
  | ended => trivial

theorem Ordered.adds_free (h : Ordered config s.trace) (hadds : Adds (Event.On Call.Free) s s') :
    Ordered config s'.trace := h.adds hadds (fun _ _ _ he => justified_of_free he)

/-- The events of a stage after the phases. -/
def Event.Late (e : Event) : Prop := e.On (fun c => ∀ p, c ≠ .phase p)

theorem Event.On.late {C : Call → Prop} {e : Event} (he : e.On C) (hC : ∀ p, ¬ C (.phase p)) :
    e.Late := he.mono (fun c hc p hp => hC p (by rwa [hp] at hc))

theorem Succeeded.append {p : Phase} {tr new : List Event} (h : Succeeded p tr)
    (hnew : ∀ e ∈ new, e.Late) : Succeeded p (tr ++ new) := by
  refine ⟨h.ended.imp (fun _ hs => List.mem_append_left _ hs), fun t code stderr hmem => ?_,
    List.mem_append_left _ h.returned⟩
  rcases List.mem_append.mp hmem with hmem | hmem
  · exact h.good t code stderr hmem
  · cases hnew _ hmem

theorem Phased.append {tr new : List Event} (h : Phased config tr) (hnew : ∀ e ∈ new, e.Late) :
    Phased config (tr ++ new) := by
  refine ⟨h.backup.append hnew, fun hp => (h.prepare hp).append hnew, fun p e hmem => ?_⟩
  rcases List.mem_append.mp hmem with hmem | hmem
  · exact h.unraised p e hmem
  · exact hnew _ hmem p rfl

theorem Backed.append {tr new : List Event} (h : Backed config tr) (hnew : ∀ e ∈ new, e.Late) :
    Backed config (tr ++ new) :=
  ⟨h.toPhased.append hnew, List.mem_append_left _ h.manifest⟩

theorem mem_phaseEvents {p q : Phase} {t : Bool} {code : ℤ} {stderr stderr' : String}
    (h : .ended q t code stderr' ∈ phaseEvents p stderr) :
    q = p ∧ t = false ∧ code = 0 ∧ stderr' = stderr := by
  simpa [phaseEvents] using h

/-- Before the phases nothing of theirs is in the trace. -/
theorem Phased.start {pre : List Event} (hpre : ∀ e ∈ pre, e.On Call.Free) {stderr stderr' : String}
    (hm : marked stderr = true) (hm' : marked stderr' = true) :
    Phased config (pre ++ backupEvents config stderr stderr') := by
  have hended : ∀ q t code err, .ended q t code err ∈ pre ++ backupEvents config stderr stderr' →
      t = false ∧ code = 0 ∧ marked err = true := by
    intro q t code err hmem
    rcases List.mem_append.mp hmem with hmem | hmem
    · cases hpre _ hmem
    rcases List.mem_append.mp hmem with hmem | hmem
    · obtain ⟨-, ht, hc, rfl⟩ := mem_phaseEvents hmem
      exact ⟨ht, hc, hm⟩
    · split_ifs at hmem
      · obtain ⟨-, ht, hc, rfl⟩ := mem_phaseEvents hmem
        exact ⟨ht, hc, hm'⟩
      · cases hmem
  refine ⟨⟨⟨stderr, ?_⟩, hended .backup, ?_⟩, fun hp => ⟨⟨stderr', ?_⟩, hended .prepare, ?_⟩,
    fun p e hmem => ?_⟩
  · simp [backupEvents, phaseEvents]
  · simp [backupEvents, phaseEvents]
  · simp [backupEvents, phaseEvents, hp]
  · simp [backupEvents, phaseEvents, hp]
  · rcases List.mem_append.mp hmem with hmem | hmem
    · exact hpre _ hmem
    · rw [backupEvents] at hmem
      split_ifs at hmem <;> simp [phaseEvents] at hmem

theorem StoredIn.append {tr new : List Event} (h : StoredIn dest tr)
    (hnew : ∀ e ∈ new, e.On (· ≠ .store dest)) : StoredIn dest (tr ++ new) := by
  refine ⟨List.mem_append_left _ h.returned, fun e hmem => ?_⟩
  rcases List.mem_append.mp hmem with hmem | hmem
  · exact h.unraised e hmem
  · exact hnew _ hmem rfl

theorem Ordered.bind {β : Type} {m : Pipeline α} {f : α → Pipeline β}
    (hm : Ordered config (exec m s).2.trace)
    (hf : ∀ a t, exec m s = (.ok a, t) → Ordered config (exec (f a) t).2.trace) :
    Ordered config (exec (m >>= f) s).2.trace := by
  rw [exec_bind]
  rcases hx : exec m s with ⟨e | a, t⟩
  · rwa [hx] at hm
  · exact hf a t hx

theorem finish_ordered (h : Ordered config s.trace) (summary : RunSummary) :
    Ordered config (exec (finish config summary) s).2.trace :=
  h.adds_free (Moves.bind (perform_adds_of trivial _) (fun _ => Moves.pure _) s)

/-- The trace after a step that returned. -/
theorem perform_trace {c : Call} {m : Io α} {a : α} (h : exec (perform c m) s = (.ok a, s')) :
    s'.trace = s.trace ++ [.call c, .returned c] := (exec_perform_ok h).2

theorem purges_cases {c : Call} (h : c.Purges dest) :
    c = .list dest ∨ c = .plan dest ∨ ∃ i, c = .delete dest i := by
  cases c with
  | list d => exact .inl (congrArg Call.list h)
  | plan d => exact .inr (.inl (congrArg Call.plan h))
  | delete d i => exact .inr (.inr ⟨i, congrArg (Call.delete · i) h⟩)
  | _ => cases h

theorem purges_ne {c : Call} (h : c.Purges dest) :
    (∀ p, c ≠ .phase p) ∧ (∀ d, c ≠ .store d) ∧ c ≠ .remove_target := by
  rcases purges_cases h with rfl | rfl | ⟨i, rfl⟩ <;> simp

theorem settle_ordered {target_dir : Path} {backup_id : String}
    {outcomes : List DestinationOutcome} (h : Ordered config s.trace)
    (hbacked : Backed config s.trace) (hstored : ∃ dest, .returned (.store dest) ∈ s.trace)
    (hout : ∀ o ∈ outcomes, o.stored = true → ∀ d, destination_named config o.name = .ok d →
      StoredIn d s.trace) :
    Ordered config (exec (settle site config target_dir backup_id now outcomes) s).2.trace := by
  have hremove : ∀ t, Adds (Event.On (· = .remove_target)) s t → Ordered config t.trace := by
    intro t ht
    refine h.adds ht (fun new hnew e he => ?_)
    have hlate : ∀ x ∈ new, x.Late := fun x hx => (hnew x hx).late (by simp)
    cases e with
    | call c =>
      obtain rfl : c = .remove_target := he
      exact ⟨hbacked.append hlate, hstored.imp (fun _ hd => List.mem_append_left _ hd)⟩
    | returned c => trivial
    | raised c x =>
      obtain rfl : c = .remove_target := he
      trivial
    | ended => trivial
  refine Ordered.bind (hremove _ (perform_adds _ _ s)) (fun _ t ht => ?_)
  have ht' : Ordered config t.trace := hremove t ((perform_adds _ _).of_exec ht)
  have htrace := perform_trace ht
  refine Ordered.bind (ht'.adds_free (perform_adds_of trivial _ t)) (fun _ u hu => ?_)
  have hu' : Ordered config u.trace := ht'.adds_free ((perform_adds_of trivial _).of_exec hu)
  -- what the purge needs holds before it
  have hnew : ∃ new, u.trace = s.trace ++ new ∧ .returned .remove_target ∈ new ∧
      ∀ e ∈ new, e.On (fun c => (∀ p, c ≠ .phase p) ∧ ∀ d, c ≠ .store d) := by
    refine ⟨_, by rw [perform_trace hu, htrace, List.append_assoc], by simp, ?_⟩
    simp [Event.On]
  obtain ⟨new, hutrace, hreturned, hnewon⟩ := hnew
  have hubacked : Backed config u.trace := by
    rw [hutrace]
    exact hbacked.append (fun e he => (hnewon e he).mono (fun _ hc => hc.1))
  have hustored : ∀ o ∈ outcomes.filter (·.stored), ∀ d, destination_named config o.name = .ok d →
      StoredIn d u.trace := by
    intro o ho d hd
    rw [hutrace]
    exact (hout o (List.mem_filter.mp ho).1 (List.mem_filter.mp ho).2 d hd).append
      (fun e he => (hnewon e he).mono (fun _ hc => hc.2 d))
  have hpurge : ∀ v, Adds (Event.On (PurgesStored config (outcomes.filter (·.stored)))) u v →
      Ordered config v.trace := by
    intro v hv
    refine hu'.adds hv (fun new' hnew' e he => ?_)
    have hne : ∀ x ∈ new', x.On (fun c => (∀ p, c ≠ .phase p) ∧ (∀ d, c ≠ .store d) ∧
        c ≠ .remove_target) := fun x hx =>
      (hnew' x hx).mono (fun _ ⟨_, _, _, _, hc⟩ => purges_ne hc)
    have hneeds : ∀ o ∈ outcomes.filter (·.stored), ∀ d, destination_named config o.name = .ok d →
        Backed config (u.trace ++ new') ∧ StoredIn d (u.trace ++ new') ∧
          .returned .remove_target ∈ u.trace ++ new' := by
      intro o ho d hd
      refine ⟨hubacked.append (fun x hx => (hne x hx).mono (fun _ hc => hc.1)),
        (hustored o ho d hd).append (fun x hx => (hne x hx).mono (fun _ hc => hc.2.1 d)),
        List.mem_append_left _ ?_⟩
      rw [hutrace]
      exact List.mem_append_right _ hreturned
    cases e with
    | call c =>
      obtain ⟨o, ho, d, hd, hc⟩ := he
      rcases purges_cases hc with rfl | rfl | ⟨i, rfl⟩ <;> exact hneeds o ho d hd
    | returned c => trivial
    | raised c x =>
      obtain ⟨o, ho, d, hd, hc⟩ := he
      rcases purges_cases hc with rfl | rfl | ⟨i, rfl⟩ <;> trivial
    | ended => trivial
  refine Ordered.bind (hpurge _ (purge_stored_adds backup_id _ u)) (fun had_error v hv => ?_)
  exact finish_ordered (hpurge v ((purge_stored_adds backup_id _).of_exec hv)) _

/-- The events of the trials of distinct destinations. -/
theorem storedIn_trials {policy : String} {dests : List DestinationConfig} {trials : List Trial}
    (h : Attempted policy dests trials) (hnodup : dests.Nodup) {tr : List Event}
    (htr : ∀ d e, .raised (.store d) e ∉ tr) {t : Trial} (ht : t ∈ trials) (hok : t.error = none) :
    StoredIn t.dest (tr ++ trials.flatMap Trial.events) := by
  have hdests : (trials.map (·.dest)).Nodup := h.dests_prefix.sublist.nodup hnodup
  refine ⟨List.mem_append_right _ (List.mem_flatMap.mpr ⟨t, ht, ?_⟩), fun e hmem => ?_⟩
  · simp [Trial.events, hok]
  · rcases List.mem_append.mp hmem with hmem | hmem
    · exact htr _ _ hmem
    · obtain ⟨t', ht', hevent⟩ := List.mem_flatMap.mp hmem
      have hdest : t'.dest = t.dest ∧ t'.error ≠ none := by
        cases herror : t'.error <;> simp [Trial.events, herror] at hevent
        exact ⟨hevent.1.symm, by simp⟩
      obtain rfl := List.inj_on_of_nodup_map hdests ht' ht hdest.1
      exact hdest.2 hok

theorem place_ordered (haccepted : config.Accepted) {target_dir : Path}
    {backup_id server_version : String} {started_at : Datetime} (h : Ordered config s.trace)
    (hphased : Phased config s.trace) (hnone : ∀ d e, .raised (.store d) e ∉ s.trace) :
    Ordered config (exec (place site config target_dir backup_id server_version now started_at)
      s).2.trace := by
  refine Ordered.bind (h.adds_free (Adds.lift _ s)) (fun finished_at t₀ ht₀ => ?_)
  have hclock : t₀.trace = s.trace := by
    rw [exec_lift] at ht₀
    rw [← (Prod.mk.inj ht₀).2]
  rw [← hclock] at h hphased hnone
  refine Ordered.bind (h.adds_free (perform_adds_of trivial _ t₀)) (fun _ t ht => ?_)
  have ht' : Ordered config t.trace := h.adds_free ((perform_adds_of trivial _).of_exec ht)
  refine Ordered.bind (ht'.adds_free (perform_adds_of trivial _ t)) (fun _ u hu => ?_)
  have hu' : Ordered config u.trace := ht'.adds_free ((perform_adds_of trivial _).of_exec hu)
  have hutrace : u.trace = t₀.trace ++ [.call .write_meta, .returned .write_meta,
      .call (.hook .post_backup none), .returned (.hook .post_backup none)] := by
    rw [perform_trace hu, perform_trace ht, List.append_assoc]
    rfl
  have hbacked : Backed config u.trace := by
    rw [hutrace]
    exact ⟨hphased.append (by simp [Event.Late, Event.On]), by simp⟩
  have hunone : ∀ d e, .raised (.store d) e ∉ u.trace := by
    intro d e
    rw [hutrace]
    simpa using hnone d e
  have hstore : ∀ v, Adds (Event.On (fun c => ∃ d ∈ config.destinations, c = .store d)) u v →
      Ordered config v.trace := by
    intro v hv
    refine hu'.adds hv (fun new hnew e he => ?_)
    have hlate : ∀ x ∈ new, x.Late := fun x hx => (hnew x hx).late (by simp)
    cases e with
    | call c =>
      obtain ⟨d, -, rfl⟩ := he
      exact hbacked.append hlate
    | returned c => trivial
    | raised c x =>
      obtain ⟨d, -, rfl⟩ := he
      trivial
    | ended => trivial
  refine Ordered.bind (hstore _ (store_to_destinations_adds _ _ _ u)) (fun outcomes v hv => ?_)
  have hv' : Ordered config v.trace :=
    hstore v ((store_to_destinations_adds target_dir backup_id _).of_exec hv)
  obtain ⟨trials, hatt, rfl, hvtrace⟩ := store_to_destinations_ok hv
  have hlate : ∀ e ∈ trials.flatMap Trial.events, e.Late := by
    intro e he
    obtain ⟨t, -, het⟩ := List.mem_flatMap.mp he
    cases herror : t.error <;> simp [Trial.events, herror] at het <;>
      rcases het with rfl | rfl <;> simp [Event.Late, Event.On]
  have hstored : ∀ t ∈ trials, t.error = none → StoredIn t.dest v.trace := by
    intro t ht hok
    rw [hvtrace]
    exact storedIn_trials hatt (List.Nodup.of_map _ haccepted.names) hunone ht hok
  split_ifs with hall
  · exact finish_ordered hv' _
  · refine settle_ordered hv' (by rw [hvtrace]; exact hbacked.append hlate) ?_ ?_
    · -- some trial succeeded, since there was a trial
      by_contra hno
      have hfail : ∀ t ∈ trials, t.outcome.stored = false := by
        intro t ht
        by_contra hok
        exact hno ⟨t.dest, (hstored t ht (by simpa [Trial.outcome] using hok)).returned⟩
      obtain ⟨t, ht⟩ := List.exists_mem_of_ne_nil _ (hatt.ne_nil haccepted.some_destination)
      refine hall ⟨List.ne_nil_of_mem (a := t.outcome) ?_, ?_⟩
      · simpa using ⟨⟨t, ht, rfl⟩, hfail t ht⟩
      · rw [List.filter_eq_nil_iff]
        intro o ho
        obtain ⟨t', ht', rfl⟩ := List.mem_map.mp ho
        simp [hfail t' ht']
    · intro o ho hok d hd
      obtain ⟨t, ht, rfl⟩ := List.mem_map.mp ho
      have hmem : t.dest ∈ config.destinations :=
        hatt.dests_prefix.subset (List.mem_map.mpr ⟨t, ht, rfl⟩)
      have hnamed := destination_named_of_mem haccepted.names hmem
      obtain rfl : t.dest = d := by
        rw [Trial.outcome] at hd
        exact Except.ok.inj (hnamed.symm.trans hd)
      exact hstored t ht (by simpa [Trial.outcome] using hok)

/-- Nothing has reached a destination when a phase raises. -/
theorem justified_of_phase {pre new : List Event} (hpre : ∀ e ∈ pre, e.On Call.Free)
    (hnew : ∀ e ∈ new, e.OfPhase) {e : Event} (he : e.OfPhase) :
    Justified config (pre ++ new) e := by
  have hcall : ∀ c : Call, c.AtDestination → .call c ∉ pre ++ new := by
    intro c hc hmem
    rcases List.mem_append.mp hmem with hmem | hmem
    · have := hpre _ hmem
      cases c <;> first | exact hc | exact this
    · rcases hnew _ hmem with ⟨p, hp⟩ | ⟨p, t, code, stderr, hp⟩
      · subst hp
        exact hc
      · cases hp
  rcases he with he | ⟨p, t, code, stderr, rfl⟩
  · cases e with
    | call c =>
      obtain ⟨p, rfl⟩ := he
      trivial
    | returned c => trivial
    | raised c x =>
      obtain ⟨p, rfl⟩ := he
      exact hcall
    | ended => trivial
  · trivial

/-- What a run does before its phases. -/
theorem prepare_run_adds (backup_id : String) :
    Moves (Adds (Event.On Call.Free)) (prepare_run site config backup_id) :=
  Moves.bind (perform_adds_of trivial _) (fun _ => Moves.bind (perform_adds_of trivial _)
    (fun _ => Moves.bind (perform_adds_of trivial _) (fun _ =>
      Moves.bind (perform_adds_of trivial _) (fun _ => Moves.pure _))))

theorem now_or_adds {E : Event → Prop} (now : Option Datetime) : Moves (Adds E) (now_or now) := by
  cases now with
  | none => exact Adds.lift _
  | some now => exact Moves.pure _

theorem run_ordered (haccepted : config.Accepted) (now : Option Datetime) (w : World) :
    Ordered config (exec (run site config now) ⟨w, []⟩).2.trace := by
  have hstart : Ordered config ([] : List Event) := fun before e after h => by simp at h
  have hstep : ∀ {t u : Pipe}, (Ordered config t.trace ∧ ∀ e ∈ t.trace, e.On Call.Free) →
      Adds (Event.On Call.Free) t u → Ordered config u.trace ∧ ∀ e ∈ u.trace, e.On Call.Free := by
    intro t u ht hadds
    refine ⟨ht.1.adds_free hadds, ?_⟩
    obtain ⟨new, htrace, hnew⟩ := hadds
    rw [htrace]
    exact fun e he => (List.mem_append.mp he).elim (ht.2 e) (hnew e)
  have h₀ : Ordered config (⟨w, []⟩ : Pipe).trace ∧ ∀ e ∈ (⟨w, []⟩ : Pipe).trace, e.On Call.Free :=
    ⟨hstart, by simp⟩
  refine Ordered.bind (hstep h₀ (now_or_adds now _)).1 (fun now' t₁ ht₁ => ?_)
  have h₁ := hstep h₀ ((now_or_adds now).of_exec ht₁)
  refine Ordered.bind (hstep h₁ (perform_adds_of trivial _ _)).1 (fun _ t₂ ht₂ => ?_)
  have h₂ := hstep h₁ ((perform_adds_of trivial _).of_exec ht₂)
  refine Ordered.bind (hstep h₂ (perform_adds_of trivial _ _)).1 (fun backup_id t₃ ht₃ => ?_)
  have h₃ := hstep h₂ ((perform_adds_of trivial _).of_exec ht₃)
  refine Ordered.bind (hstep h₃ (prepare_run_adds backup_id _)).1 (fun server_version t₄ ht₄ => ?_)
  have h₄ := hstep h₃ ((prepare_run_adds backup_id).of_exec ht₄)
  refine Ordered.bind (hstep h₄ (Adds.lift _ _)).1 (fun started_at t₅ ht₅ => ?_)
  have h₅ := hstep h₄ ((Adds.lift _).of_exec ht₅)
  have hphases : ∀ u, Adds Event.OfPhase t₅ u → Ordered config u.trace := fun u hu =>
    h₅.1.adds hu (fun new hnew e he => justified_of_phase h₅.2 hnew he)
  refine Ordered.bind (hphases _ (phases_adds _ _)) (fun failure t₆ ht₆ => ?_)
  have h₆ := hphases _ ((phases_adds _).of_exec ht₆)
  cases failure with
  | some message => exact finish_ordered h₆ _
  | none =>
    obtain ⟨stderr, stderr', hm, hm', htrace⟩ := phases_ok ht₆
    refine place_ordered haccepted h₆ (by rw [htrace]; exact Phased.start h₅.2 hm hm') ?_
    intro d e hmem
    rw [htrace] at hmem
    rcases List.mem_append.mp hmem with hmem | hmem
    · exact h₅.2 _ hmem
    · simp only [backupEvents, phaseEvents] at hmem
      split_ifs at hmem <;> simp at hmem

/-- In every run: a store is called only after the phases succeeded and the manifest was written;
the target directory is removed only after a store returned; a destination is listed and deleted
from only after its own store returned and the target directory was removed; and with a phase that
raised no destination is reached. -/
theorem effects_in_order (haccepted : config.Accepted) (now : Option Datetime) (w : World)
    {before after : List Event} {e : Event}
    (htrace : (exec (run site config now) ⟨w, []⟩).2.trace = before ++ e :: after) :
    (∀ d, e = .call (.store d) → Backed config before) ∧
      (e = .call .remove_target → ∃ d, .returned (.store d) ∈ before) ∧
      (∀ d, e = .call (.list d) ∨ (∃ i, e = .call (.delete d i)) →
        StoredIn d before ∧ .returned .remove_target ∈ before) ∧
      ∀ p x, e = .raised (.phase p) x → ∀ c : Call, c.AtDestination →
        .call c ∉ before ++ e :: after := by
  have hordered : Ordered config (exec (run site config now) ⟨w, []⟩).2.trace :=
    run_ordered haccepted now w
  have he := hordered before e after htrace
  refine ⟨fun d hd => ?_, fun hr => ?_, fun d hd => ?_, fun p x hp c hc hmem => ?_⟩
  · subst hd
    exact he
  · subst hr
    exact he.2
  · rcases hd with rfl | ⟨i, rfl⟩ <;> exact he.2
  · subst hp
    rw [htrace] at hordered
    rcases List.mem_append.mp hmem with hmem | hmem
    · exact he c hc hmem
    rcases List.mem_cons.mp hmem with hmem | hmem
    · cases hmem
    · -- a destination reached later needs phases that did not raise
      obtain ⟨l, l', rfl⟩ := List.append_of_mem hmem
      have hlater := hordered (before ++ .raised (.phase p) x :: l) (.call c) l' (by simp)
      have hbacked : Backed config (before ++ .raised (.phase p) x :: l) := by
        cases c with
        | store => exact hlater
        | list => exact hlater.1
        | plan => exact hlater.1
        | delete => exact hlater.1
        | _ => cases hc
      exact hbacked.unraised p x (by simp)

/-- The stores that have ended, in order, with what came of them. -/
def storeTrials (trace : List Event) : List Trial :=
  trace.filterMap (fun
    | .returned (.store dest) => some ⟨dest, none⟩
    | .raised (.store dest) e => some ⟨dest, some e.str⟩
    | _ => none)

theorem storeTrials_append (l l' : List Event) :
    storeTrials (l ++ l') = storeTrials l ++ storeTrials l' := List.filterMap_append

theorem storeTrials_events (trials : List Trial) :
    storeTrials (trials.flatMap Trial.events) = trials := by
  induction trials with
  | nil => rfl
  | cons t trials ih =>
    have hhead : storeTrials t.events = [t] := by
      obtain ⟨dest, error⟩ := t
      cases error <;> rfl
    rw [List.flatMap_cons, storeTrials_append, ih, hhead]
    rfl

/-- The events of a stage in which nothing is stored. -/
def Event.Storeless : Event → Prop
  | .returned (.store _) | .raised (.store _) _ => False
  | _ => True

theorem storeTrials_eq_nil {l : List Event} (h : ∀ e ∈ l, e.Storeless) : storeTrials l = [] := by
  rw [storeTrials, List.filterMap_eq_nil_iff]
  intro e he
  have := h e he
  split <;> first | cases this | rfl

theorem Event.On.storeless {C : Call → Prop} {e : Event} (he : e.On C)
    (hC : ∀ d, ¬ C (.store d)) : e.Storeless := by
  cases e with
  | returned c => cases c <;> first | trivial | exact hC _ he
  | raised c x => cases c <;> first | trivial | exact hC _ he
  | _ => trivial

theorem finish_ok {summary summary' : RunSummary}
    (h : exec (finish config summary) s = (.ok summary', s')) :
    summary' = summary ∧ Reports (fun c => ∀ d, c ≠ .store d) [] false s s' := by
  obtain ⟨_, u, hu, h⟩ := exec_bind_eq_ok h
  obtain ⟨rfl, rfl⟩ := exec_pure_eq_ok h
  exact ⟨rfl, Reports.of_returned (by simp) (by simp) (exec_perform_ok hu).2⟩

theorem settle_ok {target_dir : Path} {backup_id : String} {outcomes : List DestinationOutcome}
    {dests : List DestinationConfig} {summary : RunSummary}
    (hnamed : List.Forall₂ (fun o d => destination_named config o.name = .ok d)
      (outcomes.filter (·.stored)) dests)
    (h : exec (settle site config target_dir backup_id now outcomes) s = (.ok summary, s')) :
    ∃ had_error, summary = ⟨backup_id, exitCode (outcomes.filter (!·.stored)) had_error,
        outcomes, ""⟩ ∧ Reports (fun c => ∀ d, c ≠ .store d) dests had_error s s' := by
  obtain ⟨_, t, ht, h⟩ := exec_bind_eq_ok h
  obtain ⟨_, u, hu, h⟩ := exec_bind_eq_ok h
  obtain ⟨had_error, v, hv, h⟩ := exec_bind_eq_ok h
  obtain ⟨rfl, hfinish⟩ := finish_ok h
  have hremove : Reports (fun c => ∀ d, c ≠ .store d) [] false s t :=
    Reports.of_returned (by simp) (by simp) (exec_perform_ok ht).2
  have hhook : Reports (fun c => ∀ d, c ≠ .store d) [] false t u :=
    Reports.of_returned (by simp) (by simp) (exec_perform_ok hu).2
  have hpurge : Reports (fun c => ∀ d, c ≠ .store d) _ _ _ _ := (purge_stored_ok hnamed hv).mono
    (fun c ⟨d, _, hc⟩ => (purges_ne hc).2.1)
  refine ⟨had_error, rfl, ?_⟩
  simpa using ((hremove.trans hhook).trans hpurge).trans hfinish

/-- What the trace of a run that placed its generation says of its destinations. -/
structure Placed (config : Config) (summary : RunSummary) (trace : List Event) : Prop where
  attempted : Attempted config.transfer.on_destination_failure config.destinations
    (storeTrials trace)
  outcomes : summary.destination_outcomes = (storeTrials trace).map Trial.outcome
  purged : listCalls trace = ((storeTrials trace).filter (·.error.isNone)).map (·.dest)
  code : ∃ had_error, (had_error = true ↔ ∃ e ∈ trace, e.PurgeFailure) ∧ summary.exit_code =
    if ∀ t ∈ storeTrials trace, t.error ≠ none then .ALL_DESTINATIONS_FAILED
    else exitCode (summary.destination_outcomes.filter (!·.stored)) had_error

/-- An event of what comes before the stores. -/
def Event.Early (e : Event) : Prop := e.OfPhase ∨ e.On Call.Free

theorem Event.Early.storeless {e : Event} (he : e.Early) : e.Storeless := by
  rcases he with (he | ⟨p, t, code, stderr, rfl⟩) | he
  · exact he.storeless (by simp)
  · trivial
  · exact he.storeless (fun _ h => h)

theorem Event.Early.no_failure {e : Event} (he : e.Early) : ¬ e.PurgeFailure := by
  intro hf
  cases e with
  | raised c x =>
    rcases he with (⟨p, rfl⟩ | ⟨p, t, code, stderr, hend⟩) | he
    · exact hf
    · cases hend
    · cases c <;> first | exact hf | exact he
  | _ => exact hf

theorem listCalls_eq_nil {l : List Event} (h : ∀ d, .call (.list d) ∉ l) : listCalls l = [] := by
  rw [listCalls, List.filterMap_eq_nil_iff]
  intro e he
  split
  · exact absurd he (h _)
  · rfl

theorem Event.Early.no_listing {l : List Event} (hl : ∀ e ∈ l, e.Early) : listCalls l = [] := by
  refine listCalls_eq_nil (fun d hd => ?_)
  rcases hl _ hd with (⟨p, hp⟩ | ⟨p, t, code, stderr, hend⟩) | he
  · cases hp
  · cases hend
  · exact he

theorem mem_trial_events {trials : List Trial} {e : Event}
    (h : e ∈ trials.flatMap Trial.events) : e.On (fun c => ∃ d, c = .store d) := by
  obtain ⟨t, -, het⟩ := List.mem_flatMap.mp h
  obtain ⟨dest, error⟩ := t
  cases error <;> simp [Trial.events] at het <;> rcases het with rfl | rfl <;> exact ⟨dest, rfl⟩

/-- The trace of the stores and of what came before them. -/
theorem stores_trace {pre : List Event} (hpre : ∀ e ∈ pre, e.Early) (trials : List Trial) :
    storeTrials (pre ++ trials.flatMap Trial.events) = trials ∧
      listCalls (pre ++ trials.flatMap Trial.events) = [] ∧
      ∀ e ∈ pre ++ trials.flatMap Trial.events, ¬ e.PurgeFailure := by
  refine ⟨?_, ?_, fun e he hf => ?_⟩
  · rw [storeTrials_append, storeTrials_eq_nil (fun e he => (hpre e he).storeless),
      storeTrials_events, List.nil_append]
  · rw [listCalls_append, Event.Early.no_listing hpre, List.nil_append]
    refine listCalls_eq_nil (fun d hd => ?_)
    obtain ⟨d', hd'⟩ := mem_trial_events hd
    cases hd'
  · rcases List.mem_append.mp he with he | he
    · exact (hpre e he).no_failure hf
    · have hon := mem_trial_events he
      cases e with
      | raised c x =>
        obtain ⟨d, rfl⟩ := hon
        exact hf
      | _ => exact hf

/-- What comes after the stores stores nothing more. -/
theorem Reports.final {trials : List Trial} {listed : List DestinationConfig} {had_error : Bool}
    (htrials : storeTrials s.trace = trials) (hlist : listCalls s.trace = [])
    (hfail : ∀ e ∈ s.trace, ¬ e.PurgeFailure)
    (h : Reports (fun c => ∀ d, c ≠ .store d) listed had_error s s') :
    storeTrials s'.trace = trials ∧ listCalls s'.trace = listed ∧
      (had_error = true ↔ ∃ e ∈ s'.trace, e.PurgeFailure) := by
  obtain ⟨new, htrace, hnew, hbad, hon⟩ := h
  rw [htrace]
  refine ⟨?_, by rw [listCalls_append, hlist, hnew, List.nil_append], ?_⟩
  · rw [storeTrials_append, htrials, storeTrials_eq_nil, List.append_nil]
    exact fun e he => (hon e he).storeless (fun d hd => hd d rfl)
  · rw [hbad]
    constructor
    · exact fun ⟨e, he, hf⟩ => ⟨e, List.mem_append_right _ he, hf⟩
    · rintro ⟨e, he, hf⟩
      rcases List.mem_append.mp he with he | he
      · exact absurd hf (hfail e he)
      · exact ⟨e, he, hf⟩

theorem place_placed (hne : config.destinations ≠ [])
    (hnames : (config.destinations.map (·.name)).Nodup) {target_dir : Path}
    {backup_id server_version : String} {started_at : Datetime} {summary : RunSummary}
    (hearly : ∀ e ∈ s.trace, e.Early)
    (h : exec (place site config target_dir backup_id server_version now started_at) s =
      (.ok summary, s')) : Placed config summary s'.trace := by
  obtain ⟨finished_at, t₀, ht₀, h⟩ := exec_bind_eq_ok h
  obtain ⟨_, t, ht, h⟩ := exec_bind_eq_ok h
  obtain ⟨_, u, hu, h⟩ := exec_bind_eq_ok h
  obtain ⟨outcomes, v, hv, h⟩ := exec_bind_eq_ok h
  obtain ⟨trials, hatt, rfl, hvtrace⟩ := store_to_destinations_ok hv
  have hu' : ∀ e ∈ u.trace, e.Early := by
    have hclock : t₀.trace = s.trace := by
      rw [exec_lift] at ht₀
      rw [← (Prod.mk.inj ht₀).2]
    rw [perform_trace hu, perform_trace ht, hclock]
    intro e he
    simp only [List.mem_append, List.mem_cons, List.not_mem_nil, or_false] at he
    rcases he with (he | rfl | rfl) | rfl | rfl
    · exact hearly e he
    all_goals exact .inr trivial
  obtain ⟨htrials, hlist, hfail⟩ := stores_trace hu' trials
  rw [← hvtrace] at htrials hlist hfail
  have hfilter : ∀ p : DestinationOutcome → Bool, (trials.map Trial.outcome).filter p =
      (trials.filter (p ∘ Trial.outcome)).map Trial.outcome := fun p => List.filter_map
  have hall : ((trials.map Trial.outcome).filter (!·.stored) ≠ [] ∧
      (trials.map Trial.outcome).filter (·.stored) = []) ↔ ∀ t ∈ trials, t.error ≠ none := by
    constructor
    · rintro ⟨-, hnone⟩ t ht herror
      have hmem : t.outcome ∈ (trials.map Trial.outcome).filter (·.stored) :=
        List.mem_filter.mpr ⟨List.mem_map_of_mem ht, by simp [Trial.outcome, herror]⟩
      rw [hnone] at hmem
      cases hmem
    · intro hfailed
      have hstored : ∀ t ∈ trials, t.outcome.stored = false := fun t ht => by
        exact Bool.eq_false_iff.mpr (Option.isNone_iff_eq_none.not.mpr (hfailed t ht))
      obtain ⟨t, ht⟩ := List.exists_mem_of_ne_nil _ (hatt.ne_nil hne)
      refine ⟨List.ne_nil_of_mem (a := t.outcome) ?_, ?_⟩
      · exact List.mem_filter.mpr ⟨List.mem_map_of_mem ht, by simp [hstored t ht]⟩
      · rw [List.filter_eq_nil_iff]
        intro o ho
        obtain ⟨t', ht', rfl⟩ := List.mem_map.mp ho
        simp [hstored t' ht']
  split_ifs at h with hc
  · obtain ⟨rfl, hfinish⟩ := finish_ok h
    obtain ⟨hs, hl, hf⟩ := Reports.final htrials hlist hfail hfinish
    have hfailed := hall.mp hc
    refine ⟨by rwa [hs], by rw [hs], ?_, false, hf, ?_⟩
    · rw [hl, hs]
      have hnone : trials.filter (·.error.isNone) = [] := by
        rw [List.filter_eq_nil_iff]
        exact fun t ht hnone => hfailed t ht (Option.isNone_iff_eq_none.mp hnone)
      rw [hnone]
      rfl
    · rw [hs, if_pos hfailed]
  · have hnamed : List.Forall₂ (fun o d => destination_named config o.name = .ok d)
        ((trials.map Trial.outcome).filter (·.stored))
        ((trials.filter (·.error.isNone)).map (·.dest)) := by
      rw [hfilter]
      rw [List.forall₂_map_left_iff, List.forall₂_map_right_iff]
      refine List.forall₂_same.mpr (fun t ht => ?_)
      have hmem : t.dest ∈ config.destinations := hatt.dests_prefix.subset
        (List.mem_map_of_mem (List.mem_filter.mp ht).1)
      exact destination_named_of_mem hnames hmem
    obtain ⟨had_error, rfl, hsettle⟩ := settle_ok hnamed h
    obtain ⟨hs, hl, hf⟩ := Reports.final htrials hlist hfail hsettle
    refine ⟨by rwa [hs], by rw [hs], by rw [hl, hs], had_error, hf, ?_⟩
    rw [hs, if_neg (fun hfailed => hc (hall.mpr hfailed))]

/-- A run that ends and got past the backup. -/
theorem run_placed (hne : config.destinations ≠ [])
    (hnames : (config.destinations.map (·.name)).Nodup) {now : Option Datetime} {w : World}
    {summary : RunSummary}
    (h : exec (run site config now) ⟨w, []⟩ = (.ok summary, s'))
    (hpast : summary.exit_code ≠ .BACKUP_FAILED) : Placed config summary s'.trace := by
  have hstep : ∀ {E : Event → Prop} {t u : Pipe}, (∀ e, E e → e.Early) →
      (∀ e ∈ t.trace, e.Early) → Adds E t u → ∀ e ∈ u.trace, e.Early := by
    rintro E t u hE ht ⟨new, htrace, hnew⟩ e he
    rw [htrace] at he
    exact (List.mem_append.mp he).elim (ht e) (fun he => hE e (hnew e he))
  have hfree : ∀ e : Event, e.On Call.Free → e.Early := fun e he => .inr he
  obtain ⟨now', t₁, ht₁, h⟩ := exec_bind_eq_ok h
  obtain ⟨_, t₂, ht₂, h⟩ := exec_bind_eq_ok h
  obtain ⟨backup_id, t₃, ht₃, h⟩ := exec_bind_eq_ok h
  obtain ⟨server_version, t₄, ht₄, h⟩ := exec_bind_eq_ok h
  obtain ⟨started_at, t₅, ht₅, h⟩ := exec_bind_eq_ok h
  obtain ⟨failure, t₆, ht₆, h⟩ := exec_bind_eq_ok h
  have h₁ := hstep hfree (by simp) ((now_or_adds now).of_exec ht₁)
  have h₂ := hstep hfree h₁ ((perform_adds_of trivial _).of_exec ht₂)
  have h₃ := hstep hfree h₂ ((perform_adds_of trivial _).of_exec ht₃)
  have h₄ := hstep hfree h₃ ((prepare_run_adds backup_id).of_exec ht₄)
  have h₅ := hstep hfree h₄ ((Adds.lift _).of_exec ht₅)
  have h₆ := hstep (fun e he => .inl he) h₅ ((phases_adds _).of_exec ht₆)
  cases failure with
  | some message =>
    obtain ⟨rfl, -⟩ := finish_ok h
    exact absurd rfl hpast
  | none => exact place_placed hne hnames h₆ h

/-- The classification of a run is a case split. -/
theorem code_cases {failed : List DestinationOutcome} {nowhere : Prop} [Decidable nowhere]
    {had_error : Bool} {code : ExitCode} (hboth : ¬ (failed = [] ∧ nowhere))
    (hcode : code = if nowhere then .ALL_DESTINATIONS_FAILED else exitCode failed had_error) :
    (code = .ALL_DESTINATIONS_FAILED ↔ nowhere) ∧
      (code = .PARTIAL_DESTINATION_FAILURE ↔ ¬ nowhere ∧ ¬ failed = []) ∧
      (code = .PURGE_FAILED ↔ failed = [] ∧ had_error = true) ∧
      (code = .SUCCESS ↔ failed = [] ∧ ¬ had_error = true) := by
  subst hcode
  rw [exitCode]
  by_cases hfailed : failed = []
  · have hnot : ¬ nowhere := fun h => hboth ⟨hfailed, h⟩
    cases had_error <;> simp [hfailed, hnot]
  · by_cases hnowhere : nowhere <;> cases had_error <;> simp [hfailed, hnowhere]

/-- The exit code of a run that got past the backup, in terms of what is in its trace: the stores
with their results, the listings, and whether a listing or a delete failed. -/
theorem exit_code_tells_truth (hne : config.destinations ≠ [])
    (hnames : (config.destinations.map (·.name)).Nodup) {now : Option Datetime} {w : World}
    {summary : RunSummary}
    (h : exec (run site config now) ⟨w, []⟩ = (.ok summary, s'))
    (hpast : summary.exit_code ≠ .BACKUP_FAILED) :
    summary.destination_outcomes = (storeTrials s'.trace).map Trial.outcome ∧
      (config.transfer.on_destination_failure ≠ "abort" →
        (storeTrials s'.trace).map (·.dest) = config.destinations) ∧
      (config.transfer.on_destination_failure = "abort" →
        (storeTrials s'.trace).map (·.dest) <+: config.destinations ∧
          (((storeTrials s'.trace).map (·.dest) = config.destinations ∧
              ∀ t ∈ storeTrials s'.trace, t.error = none) ∨
            ∃ good bad, storeTrials s'.trace = good ++ [bad] ∧ (∀ t ∈ good, t.error = none) ∧
              bad.error ≠ none)) ∧
      (summary.exit_code = .ALL_DESTINATIONS_FAILED ↔
        ∀ t ∈ storeTrials s'.trace, t.error ≠ none) ∧
      (summary.exit_code = .PARTIAL_DESTINATION_FAILURE ↔
        (∃ t ∈ storeTrials s'.trace, t.error = none) ∧ ∃ t ∈ storeTrials s'.trace, t.error ≠ none) ∧
      (summary.exit_code = .PURGE_FAILED ↔
        (∀ d ∈ config.destinations, ⟨d, none⟩ ∈ storeTrials s'.trace) ∧
          ∃ e ∈ s'.trace, e.PurgeFailure) ∧
      (summary.exit_code = .SUCCESS ↔
        (∀ d ∈ config.destinations, ⟨d, none⟩ ∈ storeTrials s'.trace) ∧
          ∀ e ∈ s'.trace, ¬ e.PurgeFailure) ∧
      listCalls s'.trace = ((storeTrials s'.trace).filter (·.error.isNone)).map (·.dest) := by
  obtain ⟨hatt, houtcomes, hpurged, had_error, herror, hcode⟩ := run_placed hne hnames h hpast
  have hnonempty := hatt.ne_nil hne
  have heverywhere : (∀ d ∈ config.destinations, ⟨d, none⟩ ∈ storeTrials s'.trace) ↔
      ∀ t ∈ storeTrials s'.trace, t.error = none := by
    constructor
    · intro hall t ht
      have hdests : ((storeTrials s'.trace).map (·.dest)).Nodup :=
        hatt.dests_prefix.sublist.nodup (List.Nodup.of_map _ hnames)
      have hmem := hall t.dest (hatt.dests_prefix.subset (List.mem_map_of_mem ht))
      rw [List.inj_on_of_nodup_map hdests ht hmem rfl]
    · intro hall d hd
      rw [← hatt.dests_eq_of_stored hall] at hd
      obtain ⟨t, ht, rfl⟩ := List.mem_map.mp hd
      have herr := hall t ht
      obtain ⟨dest, error⟩ := t
      obtain rfl : error = none := herr
      exact ht
  have hfailed : summary.destination_outcomes.filter (!·.stored) = [] ↔
      ∀ t ∈ storeTrials s'.trace, t.error = none := by
    rw [houtcomes, List.filter_eq_nil_iff]
    simp [Trial.outcome]
  -- the four parts of the case split, each with the negation of the others
  have hstored : (∃ t ∈ storeTrials s'.trace, t.error = none) ↔
      ¬ ∀ t ∈ storeTrials s'.trace, t.error ≠ none := by
    simp only [ne_eq, not_forall, not_not, exists_prop]
  have hbad : (∃ t ∈ storeTrials s'.trace, t.error ≠ none) ↔
      ¬ ∀ t ∈ storeTrials s'.trace, t.error = none := by
    simp only [ne_eq, not_forall, exists_prop]
  have hclean : (∀ e ∈ s'.trace, ¬ e.PurgeFailure) ↔ ¬ had_error = true := by
    simp only [herror, not_exists, not_and]
  have hboth : ¬ ((∀ t ∈ storeTrials s'.trace, t.error = none) ∧
      ∀ t ∈ storeTrials s'.trace, t.error ≠ none) := by
    rintro ⟨hall, hnone⟩
    obtain ⟨t, ht⟩ := List.exists_mem_of_ne_nil _ hnonempty
    exact hnone t ht (hall t ht)
  rw [← hfailed] at hboth
  obtain ⟨hnone, hpartial, hpurge, hsuccess⟩ := code_cases hboth hcode
  rw [hfailed] at hpartial hpurge hsuccess
  rw [heverywhere, hstored, hbad, hclean, ← herror]
  exact ⟨houtcomes, hatt.dests_eq, fun hpolicy => ⟨hatt.dests_prefix, hatt.abort_cases hpolicy⟩,
    hnone, hpartial, hpurge, hsuccess, hpurged⟩

/-- Every process prints the marker and no call fails. -/
def backupWorld : World :=
  ⟨fun _ => smallTree, fun _ => { Reply.good 1700000000000000 with stderr := SUCCESS_MARKER }, []⟩

/-- A second destination, at `/c`. -/
def spareDestination : DestinationConfig := { smallDestination "/c" 1 with name := "spare" }

def twoDestinations : Config :=
  { smallConfig "/w" "p" "/b" 1 with destinations := [smallDestination "/b" 1, spareDestination] }

/-- A file is where the second destination should be. -/
def halfWorld : World :=
  { backupWorld with tree := fun _ => smallTree.create [entry "c"] (.file "") 0 }

/-- One destination of two gets the generation, and is the one that is purged. -/
theorem exit_code_tells_truth_partial :
    (∃ t ∈ storeTrials (exec (run (MbKeeper.site [] smallNodes) twoDestinations
        (some (Datetime.utc 1700000000000000))) ⟨halfWorld, []⟩).2.trace, t.error = none) ∧
      (∃ t ∈ storeTrials (exec (run (MbKeeper.site [] smallNodes) twoDestinations
        (some (Datetime.utc 1700000000000000))) ⟨halfWorld, []⟩).2.trace, t.error ≠ none) ∧
      listCalls (exec (run (MbKeeper.site [] smallNodes) twoDestinations
        (some (Datetime.utc 1700000000000000))) ⟨halfWorld, []⟩).2.trace =
          ((storeTrials (exec (run (MbKeeper.site [] smallNodes) twoDestinations
            (some (Datetime.utc 1700000000000000))) ⟨halfWorld, []⟩).2.trace).filter
              (·.error.isNone)).map (·.dest) := by
  have hrun : (exec (run (MbKeeper.site [] smallNodes) twoDestinations
      (some (Datetime.utc 1700000000000000))) ⟨halfWorld, []⟩).1 =
      .ok ⟨"p-20231114T221320Z", .PARTIAL_DESTINATION_FAILURE, [⟨"disk", true, ""⟩, ⟨"spare", false,
        "destination 'spare': store failed: [Errno 20] Not a directory: '/c'"⟩], ""⟩ := by
    decide +kernel
  obtain ⟨-, -, -, -, hpartial, -, -, hlisted⟩ :=
    exit_code_tells_truth (by decide) (by decide) (exec_of_ok hrun) (by decide)
  obtain ⟨hstored, hfailed⟩ := hpartial.mp rfl
  exact ⟨hstored, hfailed, hlisted⟩

theorem smallConfig_accepted : (smallConfig "/w" "p" "/b" 1).Accepted :=
  ⟨by decide, by decide, by decide, by decide +kernel⟩

theorem effects_in_order_store : ∃ before d after,
    (exec (run (MbKeeper.site [] smallNodes) (smallConfig "/w" "p" "/b" 1)
        (some (Datetime.utc 1700000000000000))) ⟨backupWorld, []⟩).2.trace =
      before ++ .call (.store d) :: after ∧ Backed (smallConfig "/w" "p" "/b" 1) before := by
  have hstore : (exec (run (MbKeeper.site [] smallNodes) (smallConfig "/w" "p" "/b" 1)
      (some (Datetime.utc 1700000000000000))) ⟨backupWorld, []⟩).2.trace.any (fun
        | .call (.store _) => true
        | _ => false) = true := by
    decide +kernel
  obtain ⟨e, he, hcall⟩ := List.any_eq_true.mp hstore
  split at hcall
  · next d =>
    obtain ⟨before, after, htrace⟩ := List.append_of_mem he
    exact ⟨before, d, after, htrace, (effects_in_order smallConfig_accepted _ _ htrace).1 d rfl⟩
  · cases hcall

end MbKeeper
