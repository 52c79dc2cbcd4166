import MbKeeper.Orchestrator

/-!
# What a purge does

The lemmas hold of any backend: a purge lists, decides and then deletes the ids
of its plan, so whatever every delete preserves the purge preserves, and what
the deletes that succeeded removed is gone.
-/
namespace MbKeeper

variable {α : Type}

/-- A step whose `DestinationError` is caught ends where the step ended. -/
theorem attempt_cases {m : Pipeline α} {s s' : Pipe} {res : Except Exn (Except String α)}
    (h : exec (attempt m) s = (res, s')) :
    (∃ a, exec m s = (.ok a, s') ∧ res = .ok (.ok a)) ∨
      (∃ message, exec m s = (.error (.destination message), s') ∧ res = .ok (.error message)) ∨
      ∃ e, exec m s = (.error e, s') ∧ (∀ message, e ≠ .destination message) ∧ res = .error e := by
  rw [attempt, exec_tryCatch] at h
  rcases hm : exec m s with ⟨e | a, u⟩
  · rw [exec_bind_error hm] at h
    by_cases hd : ∃ message, e = .destination message
    · obtain ⟨message, rfl⟩ := hd
      obtain ⟨rfl, rfl⟩ := Prod.mk.inj h
      exact .inr (.inl ⟨message, rfl, rfl⟩)
    · have hne : ∀ message, e ≠ .destination message := fun message he => hd ⟨message, he⟩
      refine .inr (.inr ⟨e, ?_, hne, ?_⟩)
      · cases e <;> first | exact absurd rfl (hne _) | (obtain ⟨-, rfl⟩ := Prod.mk.inj h; rfl)
      · cases e <;> first | exact absurd rfl (hne _) | (obtain ⟨rfl, -⟩ := Prod.mk.inj h; rfl)
  · rw [exec_bind_ok hm] at h
    obtain ⟨rfl, rfl⟩ := Prod.mk.inj h
    exact .inl ⟨a, rfl, rfl⟩

theorem attempt_moves {R : Pipe → Pipe → Prop} {m : Pipeline α} (h : Moves R m) :
    Moves R (attempt m) := by
  intro s
  rcases attempt_cases (Prod.eta (exec (attempt m) s)).symm with
    ⟨a, ha, -⟩ | ⟨_, ha, -⟩ | ⟨e, ha, -⟩
  all_goals
    have := h s
    rwa [ha] at this

section Delete

variable {dest : DestinationConfig} {D : Destination} {R : World → World → Prop} [Std.Refl R]
  [IsTrans World R]

omit [IsTrans World R] in
theorem delete_one_moves {backup_id : String} (h : Moves R (D.delete backup_id)) (dry_run : Bool) :
    Moves (OnWorld R) (delete_one dest D dry_run backup_id) :=
  Moves.ite (Moves.pure _) (attempt_moves (h.perform _))

theorem delete_planned_moves {ids : List String} (h : ∀ i ∈ ids, Moves R (D.delete i))
    (dry_run : Bool) : Moves (OnWorld R) (delete_planned dest D dry_run ids) := by
  induction ids with
  | nil => exact Moves.pure _
  | cons i ids ih =>
    refine Moves.bind (delete_one_moves (h i List.mem_cons_self) dry_run) (fun outcome =>
      Moves.bind (ih (fun j hj => h j (List.mem_cons_of_mem _ hj))) (fun rest => ?_))
    cases outcome <;> exact Moves.pure _

/-- What a delete that returned leaves true of its id, and every other delete preserves, is true
at the end of every id reported as deleted. -/
theorem delete_planned_gone (Gone : String → World → Prop) {ids : List String}
    (hmove : ∀ i ∈ ids, Moves R (D.delete i))
    (hstay : ∀ i w w', R w w' → Gone i w → Gone i w')
    (hgone : ∀ i ∈ ids, ∀ w w', exec (D.delete i) w = (.ok (), w') → Gone i w')
    {s s' : Pipe} {res : List String × Bool}
    (h : exec (delete_planned dest D false ids) s = (.ok res, s')) :
    (∀ i ∈ res.1, i ∈ ids ∧ Gone i s'.world) ∧ (res.2 = false → res.1 = ids) := by
  induction ids generalizing s s' res with
  | nil =>
    obtain ⟨rfl, rfl⟩ := exec_pure_eq_ok h
    simp
  | cons i ids ih =>
    have hmove' : ∀ j ∈ ids, Moves R (D.delete j) := fun j hj => hmove j (List.mem_cons_of_mem _ hj)
    obtain ⟨outcome, u, hu, h⟩ := exec_bind_eq_ok h
    obtain ⟨rest, v, hv, h⟩ := exec_bind_eq_ok h
    obtain ⟨hrest, hall⟩ := ih hmove' (fun j hj => hgone j (List.mem_cons_of_mem _ hj)) hv
    have hlift : ∀ j ∈ rest.1, j ∈ i :: ids ∧ Gone j v.world := fun j hj =>
      ⟨List.mem_cons_of_mem _ (hrest j hj).1, (hrest j hj).2⟩
    cases outcome with
    | error message =>
      obtain ⟨rfl, rfl⟩ := exec_pure_eq_ok h
      exact ⟨hlift, fun hf => by cases hf⟩
    | ok _ =>
      obtain ⟨rfl, rfl⟩ := exec_pure_eq_ok h
      rw [delete_one, if_neg (by simp)] at hu
      rcases attempt_cases hu with ⟨a, ha, -⟩ | ⟨_, -, he⟩ | ⟨_, -, -, he⟩
      · have hdone := hgone i List.mem_cons_self _ _ (exec_perform_ok ha).1
        have hR : R u.world s'.world := (delete_planned_moves hmove' false).of_exec hv
        refine ⟨?_, fun hf => by rw [hall hf]⟩
        intro j hj
        rcases List.mem_cons.mp hj with rfl | hj
        · exact ⟨List.mem_cons_self, hstay _ _ _ hR hdone⟩
        · exact hlift j hj
      · cases he
      · cases he

omit [Std.Refl R] [IsTrans World R] in
/-- A delete that fails with a `DestinationError` at most is got through. -/
theorem delete_one_ends {backup_id : String} {s : Pipe}
    (h : (exec (D.delete backup_id) s.world).1 = .ok () ∨
      ∃ message, (exec (D.delete backup_id) s.world).1 = .error (.destination message)) :
    ∃ outcome u, exec (delete_one dest D false backup_id) s = (.ok outcome, u) ∧
      u.world = (exec (D.delete backup_id) s.world).2 := by
  rw [delete_one, if_neg (by simp), attempt, exec_tryCatch, exec_bind, exec_perform]
  rcases hx : exec (D.delete backup_id) s.world with ⟨r, w⟩
  rw [hx] at h
  rcases h with rfl | ⟨message, rfl⟩
  · exact ⟨_, _, rfl, rfl⟩
  · exact ⟨_, _, rfl, rfl⟩

omit [Std.Refl R] [IsTrans World R] in
/-- After the first id the purge goes on with the others. -/
theorem delete_planned_cons {backup_id : String} {ids : List String} {s u : Pipe}
    {outcome : Except String Unit}
    (h : exec (delete_one dest D false backup_id) s = (.ok outcome, u)) :
    (exec (delete_planned dest D false (backup_id :: ids)) s).2.world =
      (exec (delete_planned dest D false ids) u).2.world := by
  rw [delete_planned, exec_bind_ok h, exec_bind]
  rcases exec (delete_planned dest D false ids) u with ⟨e | rest, v⟩
  · rfl
  · cases outcome <;> rfl

/-- Where no call fails every id of the plan has its turn. -/
theorem delete_planned_visits {ids : List String} (hmove : ∀ i ∈ ids, Moves R (D.delete i))
    (hcalm : ∀ i ∈ ids, ∀ w, Calm w → Calm (exec (D.delete i) w).2 ∧
      ((exec (D.delete i) w).1 = .ok () ∨
        ∃ message, (exec (D.delete i) w).1 = .error (.destination message)))
    {s : Pipe} (hs : Calm s.world) {i : String} (hi : i ∈ ids) :
    ∃ w, Calm w ∧ R s.world w ∧
      R (exec (D.delete i) w).2 (exec (delete_planned dest D false ids) s).2.world := by
  induction ids generalizing s with
  | nil => cases hi
  | cons j ids ih =>
    have hmove' : ∀ k ∈ ids, Moves R (D.delete k) := fun k hk => hmove k (List.mem_cons_of_mem _ hk)
    obtain ⟨hj, hend⟩ := hcalm j List.mem_cons_self s.world hs
    obtain ⟨outcome, u, hu, hworld⟩ := delete_one_ends hend
    have hR : R s.world u.world := by
      rw [hworld]
      exact hmove j List.mem_cons_self s.world
    rw [delete_planned_cons hu]
    rcases List.mem_cons.mp hi with rfl | hi
    · refine ⟨s.world, hs, refl_of R _, ?_⟩
      rw [← hworld]
      exact (delete_planned_moves hmove' false) u
    · obtain ⟨w, hw, hsw, hfinal⟩ := ih hmove' (fun k hk => hcalm k (List.mem_cons_of_mem _ hk))
        (by rwa [hworld]) hi
      exact ⟨w, hw, trans_of R hR hsw, hfinal⟩

end Delete

section Purge

variable {site : Site} {config : Config} {dest : DestinationConfig} {now : Datetime}
  {dry_run : Bool} {in_progress_id : Option String}

/-- A purge stopped at its listing or its decision, and did not report success; or it listed,
decided, and ran the deletes of its plan. -/
theorem purge_one_cases {s s' : Pipe} {res : Except Exn (DestinationPurgeResult × Bool)}
    (h : exec (purge_one_destination site config dest now dry_run in_progress_id) s = (res, s')) :
    (∃ r, exec (site.build_destination dest config.transfer).list_backups s.world =
        (r, s'.world) ∧ ∀ x, res = .ok x → x.2 = true ∧ x.1.deleted = []) ∨
      ∃ stored plan u r,
        exec (site.build_destination dest config.transfer).list_backups s.world =
          (.ok stored, u.world) ∧
        select_purge stored dest.keep config.retention.incomplete_grace_hours now in_progress_id =
          .ok plan ∧
        exec (delete_planned dest (site.build_destination dest config.transfer) dry_run
          plan.delete) u = (r, s') ∧
        res = r.map (fun o => (⟨dest.name, o.1, plan.keep, ""⟩, o.2)) := by
  rcases exec_bind_cases h with ⟨e, he, rfl⟩ | ⟨listing, u, hu, h⟩
  · rcases attempt_cases he with ⟨_, -, hr⟩ | ⟨_, -, hr⟩ | ⟨e', hl, -, hr⟩
    · cases hr
    · cases hr
    · exact .inl ⟨_, (exec_perform_error hl).1, fun x hx => by cases hx⟩
  · rcases attempt_cases hu with ⟨stored, hl, hr⟩ | ⟨message, hl, hr⟩ | ⟨_, -, -, hr⟩
    · obtain rfl := Except.ok.inj hr
      have hlist := (exec_perform_ok hl).1
      rcases exec_bind_cases h with ⟨e, he, rfl⟩ | ⟨plan, v, hv, h⟩
      · have hsame : s'.world = u.world := by
          have := (exec_perform_error he).1
          cases hp : select_purge stored dest.keep config.retention.incomplete_grace_hours now
              in_progress_id <;> rw [hp] at this <;> exact (Prod.mk.inj this).2.symm
        exact .inl ⟨_, by rw [hsame, hlist], fun x hx => by cases hx⟩
      · have hplan := (exec_perform_ok hv).1
        cases hp : select_purge stored dest.keep config.retention.incomplete_grace_hours now
            in_progress_id with
        | error e =>
          rw [hp] at hplan
          cases hplan
        | ok plan' =>
          rw [hp] at hplan
          obtain ⟨hplan', hw⟩ := Prod.mk.inj hplan
          obtain rfl := Except.ok.inj hplan'
          rcases exec_bind_cases h with ⟨e, he, rfl⟩ | ⟨o, t, ht, h⟩
          · exact .inr ⟨stored, _, v, .error e, by rw [← hw, hlist], hp, he, rfl⟩
          · obtain ⟨rfl, rfl⟩ := Prod.mk.inj h
            exact .inr ⟨stored, _, v, .ok o, by rw [← hw, hlist], hp, ht, rfl⟩
    · obtain rfl := Except.ok.inj hr
      obtain ⟨rfl, rfl⟩ := Prod.mk.inj h
      refine .inl ⟨_, (exec_perform_error hl).1, fun x hx => ?_⟩
      obtain rfl := Except.ok.inj hx
      exact ⟨rfl, rfl⟩
    · cases hr

/-- Where the listing and the decision succeed, the purge ends where its deletes end. -/
theorem purge_one_planned (dry_run : Bool) {s : Pipe} {w : World} {stored : List StoredBackup}
    {plan : PurgePlan}
    (hlist : exec (site.build_destination dest config.transfer).list_backups s.world =
      (.ok stored, w))
    (hplan : select_purge stored dest.keep config.retention.incomplete_grace_hours now
      in_progress_id = .ok plan) :
    ∃ u : Pipe, u.world = w ∧
      (exec (purge_one_destination site config dest now dry_run in_progress_id) s).2.world =
        (exec (delete_planned dest (site.build_destination dest config.transfer) dry_run
          plan.delete) u).2.world := by
  have hlook : ∃ u, exec (attempt (perform (.list dest)
      (site.build_destination dest config.transfer).list_backups)) s = (.ok (.ok stored), u) ∧
      u.world = w := by
    rw [attempt, exec_tryCatch, exec_bind, exec_perform, hlist]
    exact ⟨_, rfl, rfl⟩
  obtain ⟨u, hu, hw⟩ := hlook
  have hdecide : ∃ v, exec (perform (.plan dest) (liftExcept (select_purge stored dest.keep
      config.retention.incomplete_grace_hours now in_progress_id))) u = (.ok plan, v) ∧
      v.world = w := by
    rw [exec_perform, hplan]
    exact ⟨_, rfl, hw⟩
  obtain ⟨v, hv, hvw⟩ := hdecide
  refine ⟨v, hvw, ?_⟩
  rw [purge_one_destination, exec_bind_ok hu]
  change (exec (purge_listed site config dest stored now dry_run in_progress_id) u).2.world = _
  rw [purge_listed, exec_bind_ok hv, exec_bind]
  rcases exec (delete_planned dest (site.build_destination dest config.transfer) dry_run
    plan.delete) v with ⟨e | o, t⟩ <;> rfl

end Purge

end MbKeeper
