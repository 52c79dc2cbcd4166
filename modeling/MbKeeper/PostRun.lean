import MbKeeper.RunTrace

/-!
# The last hook of a run

A run gets over a `BackupError` of a phase and a `DestinationError` of a store,
a listing or a delete, and over nothing else: any other exception of any step
leaves it on the spot. So `post_run` comes at the end of exactly the runs all
of whose failures were of these two kinds.
-/
namespace MbKeeper

variable {α β : Type} {site : Site} {config : Config} {dest : DestinationConfig} {now : Datetime}
  {s s' : Pipe}

/-- The failures that a run gets over. -/
def Handled : Call → Exn → Prop
  | .phase _, .backup _ => True
  | .store _, .destination _ | .list _, .destination _ | .delete _ _, .destination _ => True
  | _, _ => False

/-- From `s` the stage returns exactly if every failure it notes is one that a run gets over. -/
def Tells (m : Pipeline α) (s : Pipe) : Prop :=
  ∃ new, (exec m s).2.trace = s.trace ++ new ∧
    ((∃ a, (exec m s).1 = .ok a) ↔ ∀ c e, .raised c e ∈ new → Handled c e)

namespace Tells

variable {m : Pipeline α}

theorem pure (a : α) (s : Pipe) : Tells (pure a) s := ⟨[], by simp, by simp⟩

theorem lift_ok {m : Io α} (h : ∀ w, ∃ a, (exec m w).1 = .ok a) (s : Pipe) : Tells (lift m) s :=
  ⟨[], by simp [exec_lift], by simpa [exec_lift] using h s.world⟩

theorem bind {f : α → Pipeline β} (hm : Tells m s)
    (hf : ∀ a t, exec m s = (.ok a, t) → Tells (f a) t) : Tells (m >>= f) s := by
  obtain ⟨new, htrace, hiff⟩ := hm
  rcases hx : exec m s with ⟨e | a, t⟩
  · rw [hx] at htrace hiff
    refine ⟨new, by rw [exec_bind_error hx]; exact htrace, ?_⟩
    rw [exec_bind_error hx, ← hiff]
    simp
  · rw [hx] at htrace hiff
    obtain ⟨new', htrace', hiff'⟩ := hf a t hx
    refine ⟨new ++ new', ?_, ?_⟩
    · rw [exec_bind_ok hx, htrace', htrace, List.append_assoc]
    · have hgood := hiff.mp ⟨a, rfl⟩
      rw [exec_bind_ok hx, hiff']
      constructor
      · intro h c e he
        exact (List.mem_append.mp he).elim (hgood c e) (h c e)
      · exact fun h c e he => h c e (List.mem_append_right _ he)

/-- A step whose exceptions nothing catches. -/
theorem perform {c : Call} (hc : ∀ e, ¬ Handled c e) (m : Io α) (s : Pipe) :
    Tells (perform c m) s := by
  rcases hx : exec (MbKeeper.perform c m) s with ⟨e | a, t⟩
  · refine ⟨_, by rw [hx]; exact (exec_perform_error hx).2, ?_⟩
    rw [hx]
    simpa using hc e
  · refine ⟨_, by rw [hx]; exact (exec_perform_ok hx).2, ?_⟩
    rw [hx]
    simp

/-- A step whose `DestinationError` is caught. -/
theorem attempt {c : Call} (hc : ∀ e, Handled c e ↔ ∃ message, e = .destination message)
    (m : Io α) (s : Pipe) : Tells (attempt (MbKeeper.perform c m)) s := by
  rcases attempt_cases (Prod.eta (exec (MbKeeper.attempt (MbKeeper.perform c m)) s)).symm with
    ⟨a, hx, hres⟩ | ⟨message, hx, hres⟩ | ⟨e, hx, hne, hres⟩
  · refine ⟨_, (exec_perform_ok hx).2, ?_⟩
    rw [hres]
    simp
  · refine ⟨_, (exec_perform_error hx).2, ?_⟩
    rw [hres]
    simpa using (hc _).mpr ⟨message, rfl⟩
  · refine ⟨_, (exec_perform_error hx).2, ?_⟩
    rw [hres]
    have hnot : ¬ Handled c e := fun h => (hne _) ((hc e).mp h).choose_spec
    simpa using hnot

end Tells

theorem handled_store {e : Exn} :
    Handled (.store dest) e ↔ ∃ message, e = .destination message := by
  cases e <;> simp [Handled]

theorem handled_list {e : Exn} : Handled (.list dest) e ↔ ∃ message, e = .destination message := by
  cases e <;> simp [Handled]

theorem handled_delete {i : String} {e : Exn} :
    Handled (.delete dest i) e ↔ ∃ message, e = .destination message := by
  cases e <;> simp [Handled]

theorem now_utc_ok (w : World) : ∃ a, (exec now_utc w).1 = .ok a := ⟨_, rfl⟩

/-- What a phase notes as raised is what it raised. -/
theorem phase_raised {runner : MariabackupRunner} {argv : List Toml} {target_dir : Path} {p : Phase}
    {res : Except Exn Unit}
    (h : exec (noted (.phase p) (runner.execute argv target_dir p)) s = (res, s')) :
    ∃ new, s'.trace = s.trace ++ new ∧
      ∀ c e, .raised c e ∈ new ↔ c = .phase p ∧ res = .error e := by
  obtain ⟨inner, htrace, hinner⟩ :=
    execute_adds runner argv target_dir p (s.note (.call (.phase p)))
  have hno : ∀ c e, .raised c e ∉ inner := by
    intro c e hmem
    obtain ⟨t, code, stderr, he⟩ := hinner _ hmem
    cases he
  rw [exec_noted] at h
  rcases hx : exec (runner.execute argv target_dir p) (s.note (.call (.phase p))) with ⟨e | a, u⟩
  · rw [hx] at h htrace
    obtain ⟨rfl, rfl⟩ := Prod.mk.inj h
    refine ⟨.call (.phase p) :: inner ++ [.raised (.phase p) e], by simp_all, fun c x => ?_⟩
    simp [hno, eq_comm]
  · rw [hx] at h htrace
    obtain ⟨rfl, rfl⟩ := Prod.mk.inj h
    exact ⟨.call (.phase p) :: inner ++ [.returned (.phase p)], by simp_all,
      fun c x => by simp [hno]⟩

/-- What the phases note as raised is what ended them. -/
theorem phases_raised {target_dir : Path} {res : Except Exn (Option String)}
    (h : exec (do
      (⟨config.backup, config.replication⟩ : MariabackupRunner).run_backup target_dir
      run_prepare_if config target_dir
      pure none : Pipeline (Option String)) s = (res, s')) :
    ∃ new, s'.trace = s.trace ++ new ∧
      ((∃ a, res = .ok a) ∧ (∀ c e, .raised c e ∉ new) ∨
        ∃ e, res = .error e ∧ (∃ p, .raised (.phase p) e ∈ new) ∧
          ∀ c x, .raised c x ∈ new → (∃ p, c = .phase p) ∧ x = e) := by
  rcases exec_bind_cases h with ⟨e, he, rfl⟩ | ⟨_, t, ht, h⟩
  · obtain ⟨new, htrace, hnew⟩ := phase_raised he
    exact ⟨new, htrace, .inr ⟨e, rfl, ⟨.backup, (hnew _ _).mpr ⟨rfl, rfl⟩⟩, fun c x hx =>
      ⟨⟨_, ((hnew c x).mp hx).1⟩, (Except.error.inj ((hnew c x).mp hx).2).symm⟩⟩⟩
  obtain ⟨new, htrace, hnew⟩ := phase_raised ht
  have hquiet : ∀ c e, .raised c e ∉ new := fun c e he => by cases ((hnew c e).mp he).2
  have hprepare : ∀ {r : Except Exn Unit} {u : Pipe}, exec (run_prepare_if config target_dir) t =
      (r, u) → ∃ new', u.trace = t.trace ++ new' ∧
        ∀ c e, .raised c e ∈ new' ↔ c = .phase .prepare ∧ r = .error e := by
    intro r u hr
    rw [run_prepare_if] at hr
    split_ifs at hr
    · exact phase_raised hr
    · obtain ⟨rfl, rfl⟩ := Prod.mk.inj hr
      exact ⟨[], by simp, by simp⟩
  rcases exec_bind_cases h with ⟨e, he, rfl⟩ | ⟨_, u, hu, h⟩
  · obtain ⟨new', htrace', hnew'⟩ := hprepare he
    refine ⟨new ++ new', by rw [htrace', htrace, List.append_assoc], .inr ⟨e, rfl,
      ⟨.prepare, List.mem_append_right _ ((hnew' _ _).mpr ⟨rfl, rfl⟩)⟩, fun c x hx => ?_⟩⟩
    rcases List.mem_append.mp hx with hx | hx
    · exact absurd hx (hquiet c x)
    · exact ⟨⟨_, ((hnew' c x).mp hx).1⟩, (Except.error.inj ((hnew' c x).mp hx).2).symm⟩
  · obtain ⟨new', htrace', hnew'⟩ := hprepare hu
    obtain ⟨rfl, rfl⟩ := Prod.mk.inj h
    refine ⟨new ++ new', by rw [htrace', htrace, List.append_assoc], .inl ⟨⟨_, rfl⟩, ?_⟩⟩
    intro c e hmem
    rcases List.mem_append.mp hmem with hmem | hmem
    · exact hquiet c e hmem
    · cases ((hnew' c e).mp hmem).2

theorem phases_tells (target_dir : Path) (s : Pipe) : Tells (phases config target_dir) s := by
  rcases hx : exec (do
      (⟨config.backup, config.replication⟩ : MariabackupRunner).run_backup target_dir
      run_prepare_if config target_dir
      pure none : Pipeline (Option String)) s with ⟨res, u⟩
  obtain ⟨new, htrace, hcases⟩ := phases_raised hx
  rw [Tells, phases, exec_tryCatch, hx]
  rcases hcases with ⟨⟨a, rfl⟩, hquiet⟩ | ⟨e, rfl, ⟨p, hp⟩, honly⟩
  · exact ⟨new, htrace, ⟨fun _ c e he => absurd he (hquiet c e), fun _ => ⟨a, rfl⟩⟩⟩
  · cases e with
    | backup message =>
      refine ⟨new, htrace, ⟨fun _ c x hx => ?_, fun _ => ⟨some message, rfl⟩⟩⟩
      obtain ⟨⟨q, rfl⟩, rfl⟩ := honly c x hx
      trivial
    | _ =>
      refine ⟨new, htrace, ⟨?_, fun hall => absurd (hall _ _ hp) id⟩⟩
      rintro ⟨_, ha⟩
      cases ha

theorem delete_planned_tells {D : Destination} {ids : List String} (s : Pipe) :
    Tells (delete_planned dest D false ids) s := by
  induction ids generalizing s with
  | nil => exact Tells.pure _ s
  | cons i ids ih =>
    refine Tells.bind ?_ (fun outcome t _ => Tells.bind (ih t) (fun rest u _ => ?_))
    · rw [delete_one, if_neg (by simp)]
      exact Tells.attempt (fun e => handled_delete) _ s
    · cases outcome <;> exact Tells.pure _ u

theorem purge_one_tells (in_progress_id : Option String) (s : Pipe) :
    Tells (purge_one_destination site config dest now false in_progress_id) s := by
  refine Tells.bind (Tells.attempt (fun e => handled_list) _ s) (fun listing t _ => ?_)
  cases listing with
  | error message => exact Tells.pure _ t
  | ok stored =>
    refine Tells.bind (Tells.perform (fun e h => ?_) _ t) (fun plan u _ =>
      Tells.bind (delete_planned_tells u) (fun _ v _ => Tells.pure _ v))
    cases e <;> exact h

theorem purge_stored_tells {backup_id : String} {outcomes : List DestinationOutcome}
    (hnamed : ∀ o ∈ outcomes, ∃ d, destination_named config o.name = .ok d) (s : Pipe) :
    Tells (purge_stored_destinations site config backup_id now outcomes) s := by
  induction outcomes generalizing s with
  | nil => exact Tells.pure _ s
  | cons o outcomes ih =>
    obtain ⟨d, hd⟩ := hnamed o List.mem_cons_self
    rw [purge_stored_destinations, hd]
    refine Tells.bind (Tells.lift_ok (fun w => ⟨d, rfl⟩) s) (fun _ t _ =>
      Tells.bind (purge_one_tells _ t) (fun _ u _ => Tells.bind ?_ (fun _ v _ => Tells.pure _ v)))
    exact ih (fun o' ho' => hnamed o' (List.mem_cons_of_mem _ ho')) u

theorem store_to_destinations_tells {target_dir : Path} {backup_id : String}
    {dests : List DestinationConfig} (s : Pipe) :
    Tells (store_to_destinations site config target_dir backup_id dests) s := by
  induction dests generalizing s with
  | nil => exact Tells.pure _ s
  | cons dest dests ih =>
    refine Tells.bind (Tells.attempt (fun e => handled_store) _ s) (fun stored t _ => ?_)
    cases stored with
    | error message =>
      dsimp only
      split_ifs
      · exact Tells.pure _ t
      · exact Tells.bind (ih t) (fun _ u _ => Tells.pure _ u)
    | ok _ => exact Tells.bind (ih t) (fun _ u _ => Tells.pure _ u)

/-- A step other than those of a phase or a destination. -/
theorem perform_tells {c : Call} (m : Io α) (s : Pipe) (hc : c.Free := by trivial) :
    Tells (perform c m) s := by
  refine Tells.perform (fun e h => ?_) m s
  cases c <;> first | exact hc | (cases e <;> exact h)

theorem remove_target_tells (m : Io α) (s : Pipe) : Tells (perform .remove_target m) s :=
  Tells.perform (fun e h => by cases e <;> exact h) m s

theorem finish_tells (summary : RunSummary) (s : Pipe) : Tells (finish config summary) s :=
  Tells.bind (perform_tells _ s) (fun _ t _ => Tells.pure _ t)

theorem place_tells (haccepted : config.Accepted) {target_dir : Path}
    {backup_id server_version : String} {started_at : Datetime} (s : Pipe) :
    Tells (place site config target_dir backup_id server_version now started_at) s := by
  refine Tells.bind (Tells.lift_ok now_utc_ok s) (fun _ t₁ _ =>
    Tells.bind (perform_tells _ t₁) (fun _ t₂ _ =>
      Tells.bind (perform_tells _ t₂) (fun _ t₃ _ =>
        Tells.bind (store_to_destinations_tells t₃) (fun outcomes t₄ hstored => ?_))))
  obtain ⟨trials, hatt, rfl, -⟩ := store_to_destinations_ok hstored
  split_ifs
  · exact finish_tells _ t₄
  · refine Tells.bind (remove_target_tells _ t₄) (fun _ t₅ _ =>
      Tells.bind (perform_tells _ t₅) (fun _ t₆ _ =>
        Tells.bind (purge_stored_tells (fun o ho => ?_) t₆) (fun _ t₇ _ => finish_tells _ t₇)))
    obtain ⟨t, ht, rfl⟩ := List.mem_map.mp (List.mem_filter.mp ho).1
    exact ⟨t.dest, destination_named_of_mem haccepted.names
      (hatt.dests_prefix.subset (List.mem_map_of_mem ht))⟩

theorem prepare_run_tells (backup_id : String) (s : Pipe) :
    Tells (prepare_run site config backup_id) s :=
  Tells.bind (perform_tells _ s) (fun _ t₁ _ =>
    Tells.bind (perform_tells _ t₁) (fun _ t₂ _ =>
      Tells.bind (perform_tells _ t₂) (fun _ t₃ _ =>
        Tells.bind (perform_tells _ t₃) (fun _ t₄ _ => Tells.pure _ t₄))))

theorem run_tells (haccepted : config.Accepted) (now : Option Datetime) (s : Pipe) :
    Tells (run site config now) s := by
  have hnow : Tells (now_or now) s := by
    cases now with
    | none => exact Tells.lift_ok now_utc_ok s
    | some now => exact Tells.pure _ s
  refine Tells.bind hnow (fun _ t₁ _ => Tells.bind (perform_tells _ t₁)
    (fun _ t₂ _ => Tells.bind (perform_tells _ t₂) (fun backup_id t₃ _ =>
      Tells.bind (prepare_run_tells backup_id t₃) (fun _ t₄ _ =>
        Tells.bind (Tells.lift_ok now_utc_ok t₄) (fun _ t₅ _ =>
          Tells.bind (phases_tells _ t₅) (fun failure t₆ _ => ?_))))))
  cases failure with
  | some message => exact finish_tells _ t₆
  | none => exact place_tells haccepted t₆

/-- The event does not call `post_run`. -/
def Event.Unreported (e : Event) : Prop := ∀ payload, e ≠ .call (.hook .post_run payload)

theorem Event.On.unreported {C : Call → Prop} {e : Event} (he : e.On C)
    (hC : ∀ payload, ¬ C (.hook .post_run payload)) : e.Unreported := by
  rintro payload rfl
  exact hC payload he

/-- The run ended with a summary, and its last step, and no other, was `post_run` with it. -/
def Reported (res : Except Exn RunSummary) (trace : List Event) : Prop :=
  ∃ summary before, res = .ok summary ∧
    trace = before ++ [.call (.hook .post_run (some summary.payload)),
      .returned (.hook .post_run (some summary.payload))] ∧ ∀ e ∈ before, e.Unreported

theorem unreported_step {t u : Pipe} (ht : ∀ e ∈ t.trace, e.Unreported)
    (hadds : Adds Event.Unreported t u) : ∀ e ∈ u.trace, e.Unreported := by
  obtain ⟨new, htrace, hnew⟩ := hadds
  rw [htrace]
  exact fun e he => (List.mem_append.mp he).elim (ht e) (hnew e)

theorem perform_unreported {c : Call} (hc : ∀ payload, c ≠ .hook .post_run payload) (m : Io α) :
    Moves (Adds Event.Unreported) (perform c m) :=
  (perform_adds c m).mono (fun _ _ h => h.mono (fun _ he => he.unreported
    (fun payload hp => hc payload hp.symm)))

theorem phases_unreported (target_dir : Path) :
    Moves (Adds Event.Unreported) (phases config target_dir) :=
  (phases_adds target_dir).mono (fun _ _ h => h.mono (by
    rintro e (he | ⟨p, t, code, stderr, rfl⟩)
    · exact he.unreported (by simp)
    · simp [Event.Unreported]))

theorem stores_unreported (target_dir : Path) (backup_id : String)
    (dests : List DestinationConfig) : Moves (Adds Event.Unreported)
      (store_to_destinations site config target_dir backup_id dests) :=
  (store_to_destinations_adds target_dir backup_id dests).mono (fun _ _ h =>
    h.mono (fun _ he => he.unreported (by simp)))

theorem purges_unreported (backup_id : String) (outcomes : List DestinationOutcome) :
    Moves (Adds Event.Unreported)
      (purge_stored_destinations site config backup_id now outcomes) :=
  (purge_stored_adds backup_id outcomes).mono (fun _ _ h => h.mono (fun _ he =>
    he.unreported (fun _ ⟨_, _, _, _, hc⟩ => hc)))

theorem prepare_unreported (backup_id : String) :
    Moves (Adds Event.Unreported) (prepare_run site config backup_id) :=
  Moves.bind (perform_unreported (by simp) _) (fun _ =>
    Moves.bind (perform_unreported (by simp) _) (fun _ =>
      Moves.bind (perform_unreported (by simp) _) (fun _ =>
        Moves.bind (perform_unreported (by simp) _) (fun _ => Moves.pure _))))

theorem finish_reported {summary summary' : RunSummary} (hs : ∀ e ∈ s.trace, e.Unreported)
    (h : exec (finish config summary) s = (.ok summary', s')) :
    Reported (.ok summary') s'.trace := by
  obtain ⟨_, u, hu, h⟩ := exec_bind_eq_ok h
  obtain ⟨rfl, rfl⟩ := exec_pure_eq_ok h
  exact ⟨summary', s.trace, rfl, (exec_perform_ok hu).2, hs⟩

theorem place_reported {target_dir : Path} {backup_id server_version : String}
    {started_at : Datetime} {summary : RunSummary} (hs : ∀ e ∈ s.trace, e.Unreported)
    (h : exec (place site config target_dir backup_id server_version now started_at) s =
      (.ok summary, s')) : Reported (.ok summary) s'.trace := by
  obtain ⟨_, t₁, h₁, h⟩ := exec_bind_eq_ok h
  obtain ⟨_, t₂, h₂, h⟩ := exec_bind_eq_ok h
  obtain ⟨_, t₃, h₃, h⟩ := exec_bind_eq_ok h
  obtain ⟨outcomes, t₄, h₄, h⟩ := exec_bind_eq_ok h
  have hs₁ := unreported_step hs ((Adds.lift _).of_exec h₁)
  have hs₂ := unreported_step hs₁ ((perform_unreported (by simp) _).of_exec h₂)
  have hs₃ := unreported_step hs₂ ((perform_unreported (by simp) _).of_exec h₃)
  have hs₄ := unreported_step hs₃ ((stores_unreported _ _ _).of_exec h₄)
  split_ifs at h with hall
  · exact finish_reported hs₄ h
  · obtain ⟨_, t₅, h₅, h⟩ := exec_bind_eq_ok h
    obtain ⟨_, t₆, h₆, h⟩ := exec_bind_eq_ok h
    obtain ⟨_, t₇, h₇, h⟩ := exec_bind_eq_ok h
    have hs₅ := unreported_step hs₄ ((perform_unreported (by simp) _).of_exec h₅)
    have hs₆ := unreported_step hs₅ ((perform_unreported (by simp) _).of_exec h₆)
    exact finish_reported (unreported_step hs₆ ((purges_unreported _ _).of_exec h₇)) h

/-- A run that returns has reported. -/
theorem run_reported {now : Option Datetime} {w : World} {summary : RunSummary}
    (h : exec (run site config now) ⟨w, []⟩ = (.ok summary, s')) :
    Reported (.ok summary) s'.trace := by
  obtain ⟨_, t₁, h₁, h⟩ := exec_bind_eq_ok h
  obtain ⟨_, t₂, h₂, h⟩ := exec_bind_eq_ok h
  obtain ⟨_, t₃, h₃, h⟩ := exec_bind_eq_ok h
  obtain ⟨_, t₄, h₄, h⟩ := exec_bind_eq_ok h
  obtain ⟨_, t₅, h₅, h⟩ := exec_bind_eq_ok h
  obtain ⟨failure, t₆, h₆, h⟩ := exec_bind_eq_ok h
  have hs₁ := unreported_step (by simp) ((now_or_adds now).of_exec h₁)
  have hs₂ := unreported_step hs₁ ((perform_unreported (by simp) _).of_exec h₂)
  have hs₃ := unreported_step hs₂ ((perform_unreported (by simp) _).of_exec h₃)
  have hs₄ := unreported_step hs₃ ((prepare_unreported _).of_exec h₄)
  have hs₅ := unreported_step hs₄ ((Adds.lift _).of_exec h₅)
  have hs₆ := unreported_step hs₅ ((phases_unreported _).of_exec h₆)
  cases failure with
  | some message => exact finish_reported hs₆ h
  | none => exact place_reported hs₆ h

/-- A run ends with `post_run`, called this once and with the summary of the run, exactly if every
failure in it is a `BackupError` of a phase or a `DestinationError` of a store, a listing or a
delete. -/
theorem post_run_fires_iff (haccepted : config.Accepted) {now : Option Datetime} {w : World}
    {res : Except Exn RunSummary} (h : exec (run site config now) ⟨w, []⟩ = (res, s')) :
    Reported res s'.trace ↔ ∀ c e, .raised c e ∈ s'.trace → Handled c e := by
  have htells : Tells (run site config now) ⟨w, []⟩ := run_tells haccepted now ⟨w, []⟩
  obtain ⟨new, htrace, hiff⟩ := htells
  rw [h] at htrace hiff
  rw [List.nil_append] at htrace
  rw [htrace, ← hiff, ← htrace]
  constructor
  · rintro ⟨summary, -, rfl, -⟩
    exact ⟨summary, rfl⟩
  · rintro ⟨summary, hok⟩
    obtain rfl : res = .ok summary := hok
    exact run_reported h

/-- The small configuration with a command for `post_run`. -/
def reportingConfig : Config :=
  { smallConfig "/w" "p" "/b" 1 with hooks := ⟨"", "", "", "notify"⟩ }

/-- The target directory cannot be made. -/
def fullWorld : World :=
  { backupWorld with tape := fun n =>
      if n = 5 then { Reply.good 0 with fault := some (.os "No space left on device") }
      else Reply.good 0 }

def Event.preBackupReturned : Event → Bool
  | .returned (.hook .pre_backup none) => true
  | _ => false

def Event.noPostRun : Event → Bool
  | .call (.hook .post_run _) => false
  | _ => true

theorem post_run_skipped :
    (exec (run (MbKeeper.site [] smallNodes) reportingConfig
        (some (Datetime.utc 1700000000000000))) ⟨fullWorld, []⟩).1 =
      .error (.os "No space left on device") ∧
    .returned (.hook .pre_backup none) ∈ (exec (run (MbKeeper.site [] smallNodes) reportingConfig
        (some (Datetime.utc 1700000000000000))) ⟨fullWorld, []⟩).2.trace ∧
    ∀ e ∈ (exec (run (MbKeeper.site [] smallNodes) reportingConfig
        (some (Datetime.utc 1700000000000000))) ⟨fullWorld, []⟩).2.trace, e.Unreported := by
  refine ⟨by decide +kernel, ?_, ?_⟩
  · have hany : (exec (run (MbKeeper.site [] smallNodes) reportingConfig
        (some (Datetime.utc 1700000000000000))) ⟨fullWorld, []⟩).2.trace.any
          Event.preBackupReturned = true := by
      decide +kernel
    obtain ⟨e, he, hreturned⟩ := List.any_eq_true.mp hany
    unfold Event.preBackupReturned at hreturned
    split at hreturned
    · exact he
    · cases hreturned
  · have hall : (exec (run (MbKeeper.site [] smallNodes) reportingConfig
        (some (Datetime.utc 1700000000000000))) ⟨fullWorld, []⟩).2.trace.all
          Event.noPostRun = true := by
      decide +kernel
    intro e he payload hcall
    have := List.all_eq_true.mp hall e he
    rw [hcall] at this
    cases this

/-- Where a store fails the run still reports, and what was raised is handled. -/
theorem post_run_fires_iff_partial :
    Reported (exec (run (MbKeeper.site [] smallNodes)
        { twoDestinations with hooks := reportingConfig.hooks }
        (some (Datetime.utc 1700000000000000))) ⟨halfWorld, []⟩).1
      (exec (run (MbKeeper.site [] smallNodes)
        { twoDestinations with hooks := reportingConfig.hooks }
        (some (Datetime.utc 1700000000000000))) ⟨halfWorld, []⟩).2.trace ∧
    ∀ c e, .raised c e ∈ (exec (run (MbKeeper.site [] smallNodes)
      { twoDestinations with hooks := reportingConfig.hooks }
      (some (Datetime.utc 1700000000000000))) ⟨halfWorld, []⟩).2.trace → Handled c e := by
  have haccepted : Config.Accepted { twoDestinations with hooks := reportingConfig.hooks } :=
    ⟨by decide, by decide, by decide, by decide +kernel⟩
  have hrun : (exec (run (MbKeeper.site [] smallNodes)
      { twoDestinations with hooks := reportingConfig.hooks }
      (some (Datetime.utc 1700000000000000))) ⟨halfWorld, []⟩).1 =
      .ok ⟨"p-20231114T221320Z", .PARTIAL_DESTINATION_FAILURE, [⟨"disk", true, ""⟩, ⟨"spare", false,
        "destination 'spare': store failed: [Errno 20] Not a directory: '/c'"⟩], ""⟩ := by
    decide +kernel
  have hreported := run_reported (exec_of_ok hrun)
  have hhandled := (post_run_fires_iff haccepted (exec_of_ok hrun)).mp hreported
  rw [hrun]
  exact ⟨hreported, hhandled⟩

end MbKeeper
