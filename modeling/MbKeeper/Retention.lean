import MbKeeper.Manifest
import MbKeeper.Newest
import Mathlib.Data.List.Sort
import Mathlib.Data.List.Nodup

/-!
# The purge decision

`select_purge` sorts what a destination lists into what stays and what goes.
Complete generations are ranked by their ids; what is incomplete is protected
for a time of grace. `select_purge_eq` says what the plan holds and
`mem_plan_iff` which ids it condemns; for the generations of one prefix the
order of the ids is the order of time.
-/
namespace MbKeeper

/-- One entry of a destination's listing. -/
structure StoredBackup where
  backup_id : String
  complete : Bool
  stored_at : Datetime
  deriving DecidableEq, Repr

structure PurgePlan where
  keep : List String
  delete : List String
  deriving DecidableEq, Repr

/-- `timedelta(hours=…)`, in microseconds. -/
def timedelta_hours (hours : ℕ) : Except Exn ℤ :=
  if hours < 24 * 1000000000 then .ok (hours * 3600000000)
  else .error (.overflow "days; must have magnitude <= 999999999")

/-- The difference of two readings, in microseconds. -/
def Datetime.sub (a b : Datetime) : Except Exn ℤ :=
  match a.instant, b.instant with
  | some s, some t => .ok (s - t)
  | none, none => .ok (a.wall - b.wall)
  | _, _ => .error (.type "can't subtract offset-naive and offset-aware datetimes")

/-- Newest first; equal ids keep their order. -/
def newestFirst (l : List StoredBackup) : List StoredBackup :=
  l.insertionSort (fun a b => b.backup_id ≤ a.backup_id)

/-- One round of the loop over the incomplete entries. -/
def sortOut (grace : ℤ) (now : Datetime) (in_progress_id : Option String) (plan : PurgePlan)
    (backup : StoredBackup) : Except Exn PurgePlan :=
  if some backup.backup_id = in_progress_id then
    .ok { plan with keep := plan.keep ++ [backup.backup_id] }
  else do
    let age ← now.sub backup.stored_at
    if age < grace then pure { plan with keep := plan.keep ++ [backup.backup_id] }
    else pure { plan with delete := plan.delete ++ [backup.backup_id] }

def select_purge (stored : List StoredBackup) (keep grace_hours : ℕ) (now : Datetime)
    (in_progress_id : Option String) : Except Exn PurgePlan := do
  let complete := newestFirst (stored.filter (·.complete))
  let incomplete := stored.filter (!·.complete)
  let keep_ids := (complete.take keep).map (·.backup_id)
  let delete_ids := (complete.drop keep).map (·.backup_id)
  let grace ← timedelta_hours grace_hours
  incomplete.foldlM (sortOut grace now in_progress_id) ⟨keep_ids, delete_ids⟩

/-- An incomplete entry that the plan keeps: the one being written, or a recent one. -/
def Spared (grace_hours : ℕ) (t : Instant) (in_progress_id : Option String) (b : StoredBackup) :
    Prop :=
  some b.backup_id = in_progress_id ∨
    ∀ s, b.stored_at.instant = some s → t - s < grace_hours * 3600000000

instance (grace_hours : ℕ) (t : Instant) (in_progress_id : Option String) (b : StoredBackup) :
    Decidable (Spared grace_hours t in_progress_id b) :=
  match h : b.stored_at.instant with
  | some s => decidable_of_iff
      (some b.backup_id = in_progress_id ∨ t - s < grace_hours * 3600000000) (by simp [Spared, h])
  | none => isTrue (by simp [Spared, h])

/-- The listing was made of aware readings. -/
def Aware (stored : List StoredBackup) : Prop := ∀ b ∈ stored, b.stored_at.instant ≠ none

private theorem foldlM_sortOut {t : Instant} {now : Datetime} (hnow : now.instant = some t)
    (grace_hours : ℕ) (in_progress_id : Option String) (l : List StoredBackup) (hl : Aware l)
    (plan : PurgePlan) :
    l.foldlM (sortOut (grace_hours * 3600000000) now in_progress_id) plan =
      (.ok ⟨plan.keep ++ (l.filter (Spared grace_hours t in_progress_id ·)).map (·.backup_id),
        plan.delete ++ (l.filter (¬ Spared grace_hours t in_progress_id ·)).map (·.backup_id)⟩ :
        Except Exn PurgePlan) := by
  induction l generalizing plan with
  | nil => simp [pure, Except.pure]
  | cons b l ih =>
    obtain ⟨s, hs⟩ := Option.ne_none_iff_exists'.mp (hl b List.mem_cons_self)
    have hstep : sortOut (grace_hours * 3600000000) now in_progress_id plan b =
        .ok (if Spared grace_hours t in_progress_id b then
          { plan with keep := plan.keep ++ [b.backup_id] }
          else { plan with delete := plan.delete ++ [b.backup_id] }) := by
      have hsub : now.sub b.stored_at = .ok (t - s) := by simp [Datetime.sub, hnow, hs]
      by_cases hid : some b.backup_id = in_progress_id
      · rw [sortOut, if_pos hid, if_pos (show Spared grace_hours t in_progress_id b from .inl hid)]
      · by_cases hage : t - s < grace_hours * 3600000000
        · have hspared : Spared grace_hours t in_progress_id b :=
            .inr (fun u hu => by rw [← Option.some.inj (hs.symm.trans hu)]; exact hage)
          rw [sortOut, if_neg hid, hsub, if_pos hspared]
          simp [bind, Except.bind, hage, pure, Except.pure]
        · have hspared : ¬ Spared grace_hours t in_progress_id b := fun h =>
            h.elim hid (fun h => hage (h s hs))
          rw [sortOut, if_neg hid, hsub, if_neg hspared]
          simp [bind, Except.bind, hage, pure, Except.pure]
    rw [List.foldlM_cons, hstep]
    change l.foldlM _ _ = _
    rw [ih (fun c hc => hl c (List.mem_cons_of_mem _ hc))]
    by_cases hspared : Spared grace_hours t in_progress_id b <;> simp [hspared]

/-- The plan of an aware listing at an aware reading. -/
theorem select_purge_eq {stored : List StoredBackup} {keep grace_hours : ℕ} {now : Datetime}
    {t : Instant} {in_progress_id : Option String} (hnow : now.instant = some t)
    (hstored : Aware stored) :
    select_purge stored keep grace_hours now in_progress_id =
      if grace_hours < 24 * 1000000000 then
        .ok ⟨((newestFirst (stored.filter (·.complete))).take keep).map (·.backup_id) ++
            ((stored.filter (!·.complete)).filter
              (Spared grace_hours t in_progress_id ·)).map (·.backup_id),
          ((newestFirst (stored.filter (·.complete))).drop keep).map (·.backup_id) ++
            ((stored.filter (!·.complete)).filter
              (¬ Spared grace_hours t in_progress_id ·)).map (·.backup_id)⟩
      else .error (.overflow "days; must have magnitude <= 999999999") := by
  rw [select_purge, timedelta_hours]
  split_ifs
  · change List.foldlM _ _ _ = _
    rw [foldlM_sortOut hnow _ _ _ (fun b hb => hstored b (List.mem_of_mem_filter hb))]
  · rfl

/-- The ids of the complete entries. -/
def completeIds (stored : List StoredBackup) : Finset String :=
  ((stored.filter (·.complete)).map (·.backup_id)).toFinset

theorem mem_completeIds {stored : List StoredBackup} {x : String} :
    x ∈ completeIds stored ↔ ∃ b ∈ stored, b.complete = true ∧ b.backup_id = x := by
  simp [completeIds, and_assoc]

private theorem newestFirst_ids (l : List StoredBackup) :
    (newestFirst l).map (·.backup_id) =
      (l.map (·.backup_id)).insertionSort (fun a b => b ≤ a) :=
  List.map_insertionSort _ _ _ _ (fun _ _ _ _ => Iff.rfl)

private theorem pairwise_newestFirst {l : List StoredBackup}
    (h : (l.map (·.backup_id)).Nodup) :
    ((newestFirst l).map (·.backup_id)).Pairwise (· > ·) := by
  rw [newestFirst_ids]
  have hsorted := List.pairwise_insertionSort (fun a b : String => b ≤ a) (l.map (·.backup_id))
  have hnodup : ((l.map (·.backup_id)).insertionSort (fun a b => b ≤ a)).Nodup :=
    (List.perm_insertionSort _ _).nodup_iff.mpr h
  exact (hsorted.and hnodup).imp (fun h => lt_of_le_of_ne h.1 (Ne.symm h.2))

private theorem toFinset_newestFirst (stored : List StoredBackup) :
    ((newestFirst (stored.filter (·.complete))).map (·.backup_id)).toFinset =
      completeIds stored := by
  rw [newestFirst_ids, completeIds]
  exact List.toFinset_eq_of_perm _ _ (List.perm_insertionSort _ _)

/-- The plan depends on the ids of the complete entries and on the incomplete entries only. -/
theorem select_purge_congr {stored stored' : List StoredBackup} {keep grace_hours : ℕ}
    {now : Datetime} {t : Instant} {in_progress_id : Option String} (hnow : now.instant = some t)
    (hstored : Aware stored) (hstored' : Aware stored')
    (hcomplete : (stored'.filter (·.complete)).map (·.backup_id) =
      (stored.filter (·.complete)).map (·.backup_id))
    (hincomplete : stored'.filter (!·.complete) = stored.filter (!·.complete)) :
    select_purge stored' keep grace_hours now in_progress_id =
      select_purge stored keep grace_hours now in_progress_id := by
  rw [select_purge_eq hnow hstored, select_purge_eq hnow hstored', List.map_take, List.map_take,
    List.map_drop, List.map_drop, newestFirst_ids, newestFirst_ids, hcomplete, hincomplete]

/-- The complete ids past the first `keep` are those with at least `keep` of them above. -/
theorem mem_ranked_out {stored : List StoredBackup} (keep : ℕ)
    (hnodup : ((stored.filter (·.complete)).map (·.backup_id)).Nodup) {x : String} :
    x ∈ ((newestFirst (stored.filter (·.complete))).drop keep).map (·.backup_id) ↔
      x ∈ completeIds stored ∧ keep ≤ above (completeIds stored) x := by
  rw [List.map_drop, ← toFinset_newestFirst, List.mem_toFinset]
  constructor
  · intro hx
    have hmem := List.mem_of_mem_drop hx
    exact ⟨hmem, (mem_drop_iff_above (pairwise_newestFirst hnodup) keep hmem).mp hx⟩
  · rintro ⟨hmem, hk⟩
    exact (mem_drop_iff_above (pairwise_newestFirst hnodup) keep hmem).mpr hk

/-- The first `keep` of the complete ids are those with fewer than `keep` of them above. -/
theorem mem_ranked_in {stored : List StoredBackup} (keep : ℕ)
    (hnodup : ((stored.filter (·.complete)).map (·.backup_id)).Nodup) {x : String} :
    x ∈ ((newestFirst (stored.filter (·.complete))).take keep).map (·.backup_id) ↔
      x ∈ completeIds stored ∧ above (completeIds stored) x < keep := by
  rw [List.map_take, ← toFinset_newestFirst, List.mem_toFinset]
  constructor
  · intro hx
    have hmem := List.mem_of_mem_take hx
    exact ⟨hmem, (mem_take_iff_above (pairwise_newestFirst hnodup) keep hmem).mp hx⟩
  · rintro ⟨hmem, hk⟩
    exact (mem_take_iff_above (pairwise_newestFirst hnodup) keep hmem).mpr hk

/-- An entry that is due for deletion: a complete one with at least `keep` complete ids above
it, or an incomplete one that is not spared. -/
def Due (keep grace_hours : ℕ) (t : Instant) (in_progress_id : Option String)
    (stored : List StoredBackup) (b : StoredBackup) : Prop :=
  if b.complete then keep ≤ above (completeIds stored) b.backup_id
  else ¬ Spared grace_hours t in_progress_id b

section

variable {stored : List StoredBackup} {keep grace_hours : ℕ} {now : Datetime} {t : Instant}
  {in_progress_id : Option String} {plan : PurgePlan}

/-- Where the complete ids are distinct, the plan condemns the ids of the entries that are due
and keeps the ids of the others. -/
theorem mem_plan_iff (hnow : now.instant = some t) (hstored : Aware stored)
    (hnodup : ((stored.filter (·.complete)).map (·.backup_id)).Nodup)
    (h : select_purge stored keep grace_hours now in_progress_id = .ok plan) (x : String) :
    (x ∈ plan.delete ↔ ∃ b ∈ stored, b.backup_id = x ∧
        Due keep grace_hours t in_progress_id stored b) ∧
      (x ∈ plan.keep ↔ ∃ b ∈ stored, b.backup_id = x ∧
        ¬ Due keep grace_hours t in_progress_id stored b) := by
  rw [select_purge_eq hnow hstored] at h
  split_ifs at h
  obtain rfl := Except.ok.inj h
  rw [List.mem_append, List.mem_append, mem_ranked_out keep hnodup, mem_ranked_in keep hnodup,
    mem_completeIds]
  simp only [List.mem_map, List.mem_filter, Bool.not_eq_true', decide_eq_true_eq, Due]
  constructor
  · constructor
    · rintro (⟨⟨b, hb, hc, rfl⟩, hk⟩ | ⟨b, ⟨⟨hb, hc⟩, hs⟩, rfl⟩)
      · exact ⟨b, hb, rfl, by simpa [hc] using hk⟩
      · exact ⟨b, hb, rfl, by simpa [hc] using hs⟩
    · rintro ⟨b, hb, rfl, hdue⟩
      cases hc : b.complete with
      | true => exact .inl ⟨⟨b, hb, hc, rfl⟩, by simpa [hc] using hdue⟩
      | false => exact .inr ⟨b, ⟨⟨hb, hc⟩, by simpa [hc] using hdue⟩, rfl⟩
  · constructor
    · rintro (⟨⟨b, hb, hc, rfl⟩, hk⟩ | ⟨b, ⟨⟨hb, hc⟩, hs⟩, rfl⟩)
      · exact ⟨b, hb, rfl, by simpa [hc] using hk⟩
      · exact ⟨b, hb, rfl, by simpa [hc] using hs⟩
    · rintro ⟨b, hb, rfl, hdue⟩
      cases hc : b.complete with
      | true => exact .inl ⟨⟨b, hb, hc, rfl⟩, by simpa [hc] using hdue⟩
      | false => exact .inr ⟨b, ⟨⟨hb, hc⟩, by simpa [hc] using hdue⟩, rfl⟩

end

private theorem foldlM_sortOut_delete {grace : ℤ} {now : Datetime}
    {in_progress_id : Option String} {l : List StoredBackup} {plan plan' : PurgePlan}
    (h : l.foldlM (sortOut grace now in_progress_id) plan = .ok plan') :
    ∃ gone ⊆ l, plan'.delete = plan.delete ++ gone.map (·.backup_id) := by
  induction l generalizing plan with
  | nil =>
    obtain rfl := Except.ok.inj h
    exact ⟨[], List.Subset.refl _, by simp⟩
  | cons b l ih =>
    rw [List.foldlM_cons] at h
    obtain ⟨mid, hmid, h⟩ := except_bind_ok h
    obtain ⟨gone, hgone, hdel⟩ := ih h
    have hstep : mid.delete = plan.delete ∨ mid.delete = plan.delete ++ [b.backup_id] := by
      rw [sortOut] at hmid
      split_ifs at hmid
      · exact .inl (by rw [← Except.ok.inj hmid])
      · obtain ⟨age, -, hmid⟩ := except_bind_ok hmid
        split_ifs at hmid
        · exact .inl (by rw [← Except.ok.inj hmid])
        · exact .inr (by rw [← Except.ok.inj hmid])
    rcases hstep with hstep | hstep
    · exact ⟨gone, List.Subset.trans hgone (List.subset_cons_self _ _), by rw [hdel, hstep]⟩
    · exact ⟨b :: gone, List.cons_subset_cons _ hgone, by rw [hdel, hstep]; simp⟩

/-- Whatever the readings, the plan condemns the complete ids with at least `keep` above them and
beyond these only ids of incomplete entries. -/
theorem mem_delete_cases {stored : List StoredBackup} {keep grace_hours : ℕ} {now : Datetime}
    {in_progress_id : Option String} {plan : PurgePlan}
    (hnodup : ((stored.filter (·.complete)).map (·.backup_id)).Nodup)
    (h : select_purge stored keep grace_hours now in_progress_id = .ok plan) :
    (∀ x ∈ completeIds stored, keep ≤ above (completeIds stored) x → x ∈ plan.delete) ∧
      ∀ x ∈ plan.delete, (x ∈ completeIds stored ∧ keep ≤ above (completeIds stored) x) ∨
        ∃ b ∈ stored, b.complete = false ∧ b.backup_id = x := by
  obtain ⟨grace, -, h⟩ := except_bind_ok h
  obtain ⟨gone, hgone, hdel⟩ := foldlM_sortOut_delete h
  refine ⟨fun x hx hk => ?_, fun x hx => ?_⟩
  · rw [hdel]
    exact List.mem_append_left _ ((mem_ranked_out keep hnodup).mpr ⟨hx, hk⟩)
  · rw [hdel, List.mem_append] at hx
    rcases hx with hx | hx
    · exact .inl ((mem_ranked_out keep hnodup).mp hx)
    · obtain ⟨b, hb, rfl⟩ := List.mem_map.mp hx
      have := List.mem_filter.mp (hgone hb)
      exact .inr ⟨b, this.1, by simpa using this.2, rfl⟩

/-- The ids of one prefix are ordered as the UTC seconds they were made in. -/
theorem generate_backup_id_embeds (pre : String) {now now' : Datetime} {t t' : Instant}
    (ht : now.instant = some t) (ht' : now'.instant = some t') (hy : FourDigitYear t)
    (hy' : FourDigitYear t') : ∃ id id', generate_backup_id pre now = .ok id ∧
      generate_backup_id pre now' = .ok id' ∧ (id < id' ↔ second t < second t') ∧
        (id = id' ↔ second t = second t') := by
  have hid : generate_backup_id pre now = .ok (pre ++ ("-" ++ String.ofList (stamp t))) :=
    generate_backup_id_eq_ok.mpr ⟨t, ht, hy.1, rfl⟩
  have hid' : generate_backup_id pre now' = .ok (pre ++ ("-" ++ String.ofList (stamp t'))) :=
    generate_backup_id_eq_ok.mpr ⟨t', ht', hy'.1, rfl⟩
  refine ⟨_, _, hid, hid', ?_⟩
  rcases lt_trichotomy (second t) (second t') with hlt | heq | hgt
  · have h := generate_backup_id_lt hid hid' ht ht' hy hy' hlt
    exact ⟨iff_of_true h hlt, iff_of_false h.ne hlt.ne⟩
  · rw [stamp_congr heq]
    simp [heq]
  · have h := generate_backup_id_lt hid' hid ht' ht hy' hy hgt
    exact ⟨iff_of_false h.not_gt hgt.not_gt, iff_of_false h.ne' hgt.ne'⟩

/-- Aware readings from the latest to the earliest. -/
def latestFirst (times : List Datetime) : List Datetime :=
  times.insertionSort (fun a b => b.instant.getD 0 ≤ a.instant.getD 0)

/-- The second of an aware reading. -/
def Datetime.utcSecond (d : Datetime) : ℤ := second (d.instant.getD 0)

/-- The id text of an aware reading. -/
private def idText (pre : String) (d : Datetime) : String :=
  pre ++ ("-" ++ String.ofList (stamp (d.instant.getD 0)))

private theorem generate_backup_id_idText (pre : String) {d : Datetime} {t : Instant}
    (ht : d.instant = some t) (hy : FourDigitYear t) :
    generate_backup_id pre d = .ok (idText pre d) :=
  generate_backup_id_eq_ok.mpr ⟨t, ht, hy.1, by rw [idText, ht, Option.getD_some]⟩

private theorem okInjective : Function.Injective (Except.ok : String → Except Exn String) :=
  fun _ _ h => Except.ok.inj h

/-- Among readings in different seconds the later one has the greater id. -/
private theorem idText_le_iff {pre : String} {times : List Datetime}
    (hyear : ∀ d ∈ times, ∃ t, d.instant = some t ∧ FourDigitYear t)
    (hsec : (times.map Datetime.utcSecond).Nodup) {a b : Datetime} (ha : a ∈ times)
    (hb : b ∈ times) :
    b.instant.getD 0 ≤ a.instant.getD 0 ↔ idText pre b ≤ idText pre a := by
  obtain ⟨t, ht, hy⟩ := hyear a ha
  obtain ⟨u, hu, hz⟩ := hyear b hb
  obtain ⟨i, j, hi, hj, hlt, -⟩ := generate_backup_id_embeds pre ht hu hy hz
  rw [generate_backup_id_idText pre ht hy] at hi
  rw [generate_backup_id_idText pre hu hz] at hj
  obtain rfl := Except.ok.inj hi
  obtain rfl := Except.ok.inj hj
  rw [ht, hu, Option.getD_some, Option.getD_some, ← not_lt (b := idText pre b), hlt]
  by_cases hab : a = b
  · obtain rfl := Option.some.inj (ht.symm.trans (hab ▸ hu))
    simp
  · -- different readings lie in different seconds, so they are ordered as these
    have hne : second t ≠ second u := fun h => hab
      (List.inj_on_of_nodup_map hsec ha hb (by simp [Datetime.utcSecond, ht, hu, h]))
    change @LE.le ℤ _ u t ↔ _
    unfold second at hne ⊢
    omega

/-- The ids of the complete generations of one prefix, listed in any order, are kept and deleted
by time: the latest `keep` stay. An id is decided by its UTC second alone, and ids are ordered
as these seconds. -/
theorem retention_is_chronological (pre : String) :
    (∀ now now' t t', now.instant = some t → now'.instant = some t' →
        (second t = second t' → generate_backup_id pre now = generate_backup_id pre now') ∧
        (FourDigitYear t → FourDigitYear t' → ∃ id id', generate_backup_id pre now = .ok id ∧
          generate_backup_id pre now' = .ok id' ∧ (id < id' ↔ second t < second t') ∧
            (id = id' ↔ second t = second t'))) ∧
      ∀ times : List Datetime, (∀ d ∈ times, ∃ t, d.instant = some t ∧ FourDigitYear t) →
        (times.map Datetime.utcSecond).Nodup → ∀ stored : List StoredBackup,
        (∀ b ∈ stored, b.complete = true) →
        stored.map (fun b => .ok b.backup_id) = times.map (generate_backup_id pre) →
        ∀ keep grace_hours now in_progress_id, ∃ plan,
          select_purge stored keep grace_hours now in_progress_id =
            (timedelta_hours grace_hours).map (fun _ => plan) ∧
          plan.keep.map .ok = ((latestFirst times).take keep).map (generate_backup_id pre) ∧
          plan.delete.map .ok = ((latestFirst times).drop keep).map (generate_backup_id pre) := by
  refine ⟨fun now now' t t' ht ht' => ⟨fun hs => ?_, generate_backup_id_embeds pre ht ht'⟩,
    fun times hyear hsec stored hcomplete hids keep grace_hours now in_progress_id => ?_⟩
  · have hrep : Representable t ↔ Representable t' := by rw [Representable, hs, Representable]
    simp only [generate_backup_id, ht, ht', hrep, stamp_congr hs]
  have hmade : ∀ l ⊆ times, l.map (generate_backup_id pre) = (l.map (idText pre)).map .ok := by
    intro l hl
    rw [List.map_map]
    refine List.map_congr_left (fun d hd => ?_)
    obtain ⟨t, ht, hy⟩ := hyear d (hl hd)
    exact generate_backup_id_idText pre ht hy
  have hlisted : stored.map (·.backup_id) = times.map (idText pre) := by
    apply List.map_injective_iff.mpr okInjective
    rw [← hmade times (List.Subset.refl _), ← hids, List.map_map]
    rfl
  have hranked : (newestFirst stored).map (·.backup_id) = (latestFirst times).map (idText pre) := by
    have hsort : (latestFirst times).map (idText pre) =
        (times.map (idText pre)).insertionSort (fun a b => b ≤ a) :=
      List.map_insertionSort _ _ _ _ (fun a ha b hb => idText_le_iff hyear hsec ha hb)
    rw [newestFirst_ids, hlisted, hsort]
  have hsub : latestFirst times ⊆ times := fun d hd =>
    (List.perm_insertionSort _ _).subset hd
  have hall : stored.filter (·.complete) = stored := List.filter_eq_self.mpr hcomplete
  have hnone : stored.filter (!·.complete) = [] :=
    List.filter_eq_nil_iff.mpr (fun b hb => by simp [hcomplete b hb])
  refine ⟨⟨((newestFirst stored).take keep).map (·.backup_id),
    ((newestFirst stored).drop keep).map (·.backup_id)⟩, ?_, ?_, ?_⟩
  · rw [select_purge, hall, hnone]
    cases timedelta_hours grace_hours <;> rfl
  · rw [hmade _ (List.Subset.trans (List.take_subset _ _) hsub), List.map_take, hranked,
      ← List.map_take]
  · rw [hmade _ (List.Subset.trans (List.drop_subset _ _) hsub), List.map_drop, hranked,
      ← List.map_drop]

/-- Three arrivals out of order under one prefix, with offsets; one is kept. -/
theorem retention_is_chronological_three :
    ∃ plan, select_purge [⟨"p-20231114T221320Z", true, Datetime.utc 0⟩,
        ⟨"p-20240228T120000Z", true, Datetime.utc 0⟩, ⟨"p-20231114T221321Z", true, Datetime.utc 0⟩]
        1 24 (Datetime.utc 0) none = .ok plan ∧ plan.keep = ["p-20240228T120000Z"] := by
  obtain ⟨plan, hplan, hkeep, -⟩ := (retention_is_chronological "p").2
    [⟨1700003600000000, some 3600000000⟩, Datetime.utc 1709121600000000,
      Datetime.utc 1700000001999999]
    (by
      simp only [List.forall_mem_cons, List.not_mem_nil, false_imp_iff, implies_true, and_true]
      exact ⟨⟨1700000000000000, by decide, by decide⟩, ⟨1709121600000000, by decide, by decide⟩,
        1700000001999999, by decide, by decide⟩)
    (by decide)
    [⟨"p-20231114T221320Z", true, Datetime.utc 0⟩,
      ⟨"p-20240228T120000Z", true, Datetime.utc 0⟩, ⟨"p-20231114T221321Z", true, Datetime.utc 0⟩]
    (by decide) rfl 1 24 (Datetime.utc 0) none
  refine ⟨plan, hplan, ?_⟩
  exact List.map_injective_iff.mpr okInjective (hkeep.trans rfl)

end MbKeeper
