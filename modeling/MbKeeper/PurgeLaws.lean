import MbKeeper.Destinations
import MbKeeper.PurgeEffects

/-!
# Laws of the purge decision

`select_purge` returns a plan exactly when the time of grace is one that
`timedelta` can hold and every age it has to judge can be computed; the plan
then meets `PurgeSpec`. Deciding again after some of the planned deletes does
not move what is kept, so purges that fail in part are made good by later ones.
-/
namespace MbKeeper

/-- The entry is not the one being written and has reached the age of grace. -/
def Overdue (grace : ℤ) (now : Datetime) (in_progress_id : Option String) (b : StoredBackup) :
    Prop :=
  some b.backup_id ≠ in_progress_id ∧ ∃ age, now.sub b.stored_at = .ok age ∧ grace ≤ age

/-- Whether it is overdue can be said: its age is not asked for or can be computed. -/
def Judged (now : Datetime) (in_progress_id : Option String) (b : StoredBackup) : Prop :=
  some b.backup_id ≠ in_progress_id → ∃ age, now.sub b.stored_at = .ok age

instance (grace : ℤ) (now : Datetime) (in_progress_id : Option String) (b : StoredBackup) :
    Decidable (Overdue grace now in_progress_id b) :=
  match h : now.sub b.stored_at with
  | .ok age => decidable_of_iff (some b.backup_id ≠ in_progress_id ∧ grace ≤ age)
      (by simp [Overdue, h])
  | .error _ => isFalse (by simp [Overdue, h])

section

variable {stored : List StoredBackup} {keep grace_hours : ℕ} {grace : ℤ} {now : Datetime}
  {in_progress_id : Option String} {plan plan' : PurgePlan} {b : StoredBackup}

theorem sortOut_ok (h : Judged now in_progress_id b) :
    sortOut grace now in_progress_id plan b =
      .ok (if Overdue grace now in_progress_id b then
        { plan with delete := plan.delete ++ [b.backup_id] }
        else { plan with keep := plan.keep ++ [b.backup_id] }) := by
  unfold sortOut
  by_cases hid : some b.backup_id = in_progress_id
  · rw [if_pos hid, if_neg (fun hover => hover.1 hid)]
  · obtain ⟨age, hage⟩ := h hid
    rw [if_neg hid, hage]
    by_cases hold : grace ≤ age
    · rw [if_pos (show Overdue grace now in_progress_id b from ⟨hid, age, hage, hold⟩)]
      simp [bind, Except.bind, pure, Except.pure, not_lt.mpr hold]
    · have hnot : ¬ Overdue grace now in_progress_id b := by
        intro ⟨_, age', hage', hold'⟩
        rw [hage] at hage'
        exact hold (Except.ok.inj hage' ▸ hold')
      rw [if_neg hnot]
      simp [bind, Except.bind, pure, Except.pure, not_le.mp hold]

theorem judged_of_sortOut (h : sortOut grace now in_progress_id plan b = .ok plan') :
    Judged now in_progress_id b := by
  intro hid
  unfold sortOut at h
  rw [if_neg hid] at h
  obtain ⟨age, hage, -⟩ := except_bind_ok h
  exact ⟨age, hage⟩

theorem foldlM_sortOut_ok {l : List StoredBackup} (h : ∀ b ∈ l, Judged now in_progress_id b) :
    l.foldlM (sortOut grace now in_progress_id) plan =
      .ok ⟨plan.keep ++ (l.filter (¬ Overdue grace now in_progress_id ·)).map (·.backup_id),
        plan.delete ++ (l.filter (Overdue grace now in_progress_id ·)).map (·.backup_id)⟩ := by
  induction l generalizing plan with
  | nil => simp [pure, Except.pure]
  | cons b l ih =>
    rw [List.foldlM_cons, sortOut_ok (h b List.mem_cons_self)]
    change l.foldlM _ _ = _
    rw [ih (fun c hc => h c (List.mem_cons_of_mem _ hc))]
    by_cases hb : Overdue grace now in_progress_id b <;> simp [hb]

theorem judged_of_foldlM {l : List StoredBackup}
    (h : l.foldlM (sortOut grace now in_progress_id) plan = .ok plan') :
    ∀ b ∈ l, Judged now in_progress_id b := by
  induction l generalizing plan with
  | nil => simp
  | cons b l ih =>
    rw [List.foldlM_cons] at h
    obtain ⟨mid, hmid, h⟩ := except_bind_ok h
    intro c hc
    rcases List.mem_cons.mp hc with rfl | hc
    · exact judged_of_sortOut hmid
    · exact ih h c hc

variable (stored keep grace_hours now in_progress_id)

/-- The entries a purge keeps: the first `keep` of the complete ones, and the incomplete ones that
are not overdue. -/
def keptEntries : List StoredBackup :=
  (newestFirst (stored.filter (·.complete))).take keep ++
    (stored.filter (!·.complete)).filter
      (¬ Overdue (grace_hours * 3600000000) now in_progress_id ·)

def goneEntries : List StoredBackup :=
  (newestFirst (stored.filter (·.complete))).drop keep ++
    (stored.filter (!·.complete)).filter (Overdue (grace_hours * 3600000000) now in_progress_id ·)

/-- The time of grace is one `timedelta` can hold, and every age that is asked for exists. -/
def Plannable : Prop :=
  grace_hours < 24 * 1000000000 ∧
    ∀ b ∈ stored, b.complete = false → Judged now in_progress_id b

variable {stored keep grace_hours now in_progress_id}

theorem select_purge_ok (h : Plannable stored grace_hours now in_progress_id) :
    select_purge stored keep grace_hours now in_progress_id =
      .ok ⟨(keptEntries stored keep grace_hours now in_progress_id).map (·.backup_id),
        (goneEntries stored keep grace_hours now in_progress_id).map (·.backup_id)⟩ := by
  obtain ⟨hgrace, hjudged⟩ := h
  unfold select_purge timedelta_hours keptEntries goneEntries
  rw [if_pos hgrace]
  change List.foldlM _ _ _ = _
  have hincomplete : ∀ b ∈ stored.filter (!·.complete), Judged now in_progress_id b := by
    intro b hb
    have hmem := List.mem_filter.mp hb
    exact hjudged b hmem.1 (by simpa using hmem.2)
  rw [foldlM_sortOut_ok hincomplete, List.map_append, List.map_append]

theorem plannable_of_ok (h : select_purge stored keep grace_hours now in_progress_id = .ok plan) :
    Plannable stored grace_hours now in_progress_id := by
  obtain ⟨grace, hgrace, h⟩ := except_bind_ok h
  constructor
  · unfold timedelta_hours at hgrace
    split_ifs at hgrace with hlt
    exact hlt
  · intro b hb hc
    exact judged_of_foldlM h b (List.mem_filter.mpr ⟨hb, by simp [hc]⟩)

theorem plan_eq (h : select_purge stored keep grace_hours now in_progress_id = .ok plan) :
    plan = ⟨(keptEntries stored keep grace_hours now in_progress_id).map (·.backup_id),
      (goneEntries stored keep grace_hours now in_progress_id).map (·.backup_id)⟩ :=
  Except.ok.inj (h.symm.trans (select_purge_ok (plannable_of_ok h)))

theorem mem_newestFirst {l : List StoredBackup} : b ∈ newestFirst l ↔ b ∈ l :=
  (List.perm_insertionSort _ _).mem_iff

section

variable (stored keep grace_hours now in_progress_id)

/-- The two lists take the listing apart. -/
theorem entries_perm : (keptEntries stored keep grace_hours now in_progress_id ++
    goneEntries stored keep grace_hours now in_progress_id).Perm stored := by
  have hsort : (newestFirst (stored.filter (·.complete))).Perm (stored.filter (·.complete)) :=
    List.perm_insertionSort _ _
  have hcomplete : ((newestFirst (stored.filter (·.complete))).take keep ++
      (newestFirst (stored.filter (·.complete))).drop keep).Perm (stored.filter (·.complete)) := by
    rw [List.take_append_drop]
    exact hsort
  have hjudged : ∀ l : List StoredBackup,
      (l.filter (¬ Overdue (grace_hours * 3600000000) now in_progress_id ·) ++
        l.filter (Overdue (grace_hours * 3600000000) now in_progress_id ·)).Perm l := by
    intro l
    have hsplit := List.filter_append_perm
      (fun b => decide (Overdue (grace_hours * 3600000000) now in_progress_id b)) l
    simp only [decide_not]
    exact List.perm_append_comm.trans hsplit
  have hboth : (stored.filter (·.complete) ++ stored.filter (!·.complete)).Perm stored :=
    List.filter_append_perm _ _
  unfold keptEntries goneEntries
  refine List.Perm.trans ?_ ((hcomplete.append (hjudged _)).trans hboth)
  rw [List.append_assoc, List.append_assoc]
  apply List.Perm.append_left
  rw [← List.append_assoc, ← List.append_assoc]
  exact List.perm_append_comm.append_right _

/-- Of a list of complete entries and one of incomplete entries the first holds the complete. -/
theorem filter_complete_append (p : StoredBackup → Bool) {l : List StoredBackup}
    (hl : ∀ b ∈ l, b.complete = true) :
    (l ++ (stored.filter (!·.complete)).filter p).filter (·.complete) = l := by
  have hfirst : l.filter (·.complete) = l := List.filter_eq_self.mpr hl
  have hsecond : ((stored.filter (!·.complete)).filter p).filter (·.complete) = [] := by
    apply List.filter_eq_nil_iff.mpr
    intro b hb
    have hmem := List.mem_filter.mp (List.mem_of_mem_filter hb)
    simpa using hmem.2
  rw [List.filter_append, hfirst, hsecond, List.append_nil]

theorem kept_complete :
    (keptEntries stored keep grace_hours now in_progress_id).filter (·.complete) =
      (newestFirst (stored.filter (·.complete))).take keep :=
  filter_complete_append stored _ (fun _ hb =>
    (List.mem_filter.mp (mem_newestFirst.mp (List.mem_of_mem_take hb))).2)

theorem gone_complete :
    (goneEntries stored keep grace_hours now in_progress_id).filter (·.complete) =
      (newestFirst (stored.filter (·.complete))).drop keep :=
  filter_complete_append stored _ (fun _ hb =>
    (List.mem_filter.mp (mem_newestFirst.mp (List.mem_of_mem_drop hb))).2)

end

/-- What is asked of a purge plan. -/
structure PurgeSpec (stored : List StoredBackup) (keep grace_hours : ℕ) (now : Datetime)
    (in_progress_id : Option String) (plan : PurgePlan) : Prop where
  /-- Nothing is lost, invented or duplicated. -/
  perm : (plan.keep ++ plan.delete).Perm (stored.map (·.backup_id))
  /-- The entries are sorted out into those kept and those deleted: `keep` complete ones are kept,
  none of them older than one that is deleted, and an incomplete one is deleted exactly if it is
  overdue. -/
  entries : ∃ kept gone : List StoredBackup, (kept ++ gone).Perm stored ∧
    plan.keep = kept.map (·.backup_id) ∧
    plan.delete = gone.map (·.backup_id) ∧
    (kept.filter (·.complete)).length = min keep (stored.filter (·.complete)).length ∧
    (∀ a ∈ kept, ∀ b ∈ gone, a.complete = true → b.complete = true → b.backup_id ≤ a.backup_id) ∧
    (∀ b ∈ kept, b.complete = false → ¬ Overdue (grace_hours * 3600000000) now in_progress_id b) ∧
    ∀ b ∈ gone, b.complete = false → Overdue (grace_hours * 3600000000) now in_progress_id b
  disjoint : (stored.map (·.backup_id)).Nodup → plan.keep.Disjoint plan.delete
  order : (stored.map (·.backup_id)).Nodup → ∀ stored' : List StoredBackup, stored'.Perm stored →
    ∃ plan', select_purge stored' keep grace_hours now in_progress_id = .ok plan' ∧
      (∀ i, i ∈ plan'.keep ↔ i ∈ plan.keep) ∧ ∀ i, i ∈ plan'.delete ↔ i ∈ plan.delete

theorem sorted_newestFirst (l : List StoredBackup) :
    (newestFirst l).Pairwise (fun a b => b.backup_id ≤ a.backup_id) :=
  List.pairwise_insertionSort _ l

/-- Of distinct ids the newest come first in one order only. -/
theorem newestFirst_eq {l l' : List StoredBackup} (hnodup : (l.map (·.backup_id)).Nodup)
    (hperm : l'.Perm l) (hsorted : l'.Pairwise (fun a b => b.backup_id ≤ a.backup_id)) :
    l' = newestFirst l := by
  have hsame : l'.Perm (newestFirst l) := hperm.trans (List.perm_insertionSort _ _).symm
  apply hsame.eq_of_pairwise _ hsorted (sorted_newestFirst l)
  intro a b ha hb hab hba
  have ha' : a ∈ l := hperm.mem_iff.mp ha
  have hb' : b ∈ l := mem_newestFirst.mp hb
  exact List.inj_on_of_nodup_map hnodup ha' hb' (le_antisymm hba hab)

theorem nodup_complete (h : (stored.map (·.backup_id)).Nodup) :
    ((stored.filter (·.complete)).map (·.backup_id)).Nodup :=
  h.sublist (List.filter_sublist.map _)

theorem Plannable.perm {stored' : List StoredBackup}
    (h : Plannable stored grace_hours now in_progress_id) (hperm : stored'.Perm stored) :
    Plannable stored' grace_hours now in_progress_id :=
  ⟨h.1, fun b hb => h.2 b (hperm.mem_iff.mp hb)⟩

theorem select_purge_spec (h : Plannable stored grace_hours now in_progress_id) :
    PurgeSpec stored keep grace_hours now in_progress_id
      ⟨(keptEntries stored keep grace_hours now in_progress_id).map (·.backup_id),
        (goneEntries stored keep grace_hours now in_progress_id).map (·.backup_id)⟩ := by
  have hperm := entries_perm stored keep grace_hours now in_progress_id
  have hids : ((keptEntries stored keep grace_hours now in_progress_id).map (·.backup_id) ++
      (goneEntries stored keep grace_hours now in_progress_id).map (·.backup_id)).Perm
        (stored.map (·.backup_id)) := by
    rw [← List.map_append]
    exact hperm.map _
  refine ⟨hids, ⟨_, _, hperm, rfl, rfl, ?_, ?_, ?_, ?_⟩, fun hnodup => ?_, fun hnodup => ?_⟩
  · rw [kept_complete, List.length_take, newestFirst, List.length_insertionSort]
  · intro a ha b hb hac hbc
    have ha' : a ∈ (newestFirst (stored.filter (·.complete))).take keep := by
      rw [← kept_complete stored keep grace_hours now in_progress_id]
      exact List.mem_filter.mpr ⟨ha, hac⟩
    have hb' : b ∈ (newestFirst (stored.filter (·.complete))).drop keep := by
      rw [← gone_complete stored keep grace_hours now in_progress_id]
      exact List.mem_filter.mpr ⟨hb, hbc⟩
    have hsorted := sorted_newestFirst (stored.filter (·.complete))
    rw [← List.take_append_drop keep (newestFirst (stored.filter (·.complete)))] at hsorted
    exact (List.pairwise_append.mp hsorted).2.2 a ha' b hb'
  · intro b hb hc
    unfold keptEntries at hb
    rcases List.mem_append.mp hb with hb | hb
    · have hcomplete := (List.mem_filter.mp (mem_newestFirst.mp (List.mem_of_mem_take hb))).2
      rw [hc] at hcomplete
      cases hcomplete
    · simpa using (List.mem_filter.mp hb).2
  · intro b hb hc
    unfold goneEntries at hb
    rcases List.mem_append.mp hb with hb | hb
    · have hcomplete := (List.mem_filter.mp (mem_newestFirst.mp (List.mem_of_mem_drop hb))).2
      rw [hc] at hcomplete
      cases hcomplete
    · simpa using (List.mem_filter.mp hb).2
  · exact List.disjoint_of_nodup_append (hids.nodup_iff.mpr hnodup)
  · intro stored' hstored
    have hsorted : newestFirst (stored'.filter (·.complete)) =
        newestFirst (stored.filter (·.complete)) :=
      newestFirst_eq (nodup_complete hnodup)
        ((List.perm_insertionSort _ _).trans (hstored.filter _)) (sorted_newestFirst _)
    refine ⟨_, select_purge_ok (h.perm hstored), fun i => ?_, fun i => ?_⟩
    · apply List.Perm.mem_iff
      apply List.Perm.map
      unfold keptEntries
      rw [hsorted]
      exact ((hstored.filter _).filter _).append_left _
    · apply List.Perm.mem_iff
      apply List.Perm.map
      unfold goneEntries
      rw [hsorted]
      exact ((hstored.filter _).filter _).append_left _

variable (stored keep grace_hours now in_progress_id)

/-- `select_purge` returns a plan that meets its specification exactly if `timedelta` can hold the
time of grace and every age it asks for can be computed. -/
theorem select_purge_spec_iff :
    (∃ plan, select_purge stored keep grace_hours now in_progress_id = .ok plan ∧
      PurgeSpec stored keep grace_hours now in_progress_id plan) ↔
    Plannable stored grace_hours now in_progress_id :=
  ⟨fun ⟨_, h, _⟩ => plannable_of_ok h, fun h => ⟨_, select_purge_ok h, select_purge_spec h⟩⟩

end

/-- More hours of grace than `timedelta` can hold, which `parse_config` accepts. -/
def longGrace : Table :=
  smallTable "/w" "p" "/b" 1 ++
    [("retention", .table [("incomplete_grace_hours", .int 24000000000)])]

/-- With that much grace no purge comes as far as a plan. -/
theorem no_plan_for_long_grace :
    (parse_config longGrace).toOption.map (·.retention.incomplete_grace_hours) = some 24000000000 ∧
      ¬ ∃ plan, select_purge [] 1 24000000000 (Datetime.utc 1700000000000000) none = .ok plan ∧
        PurgeSpec [] 1 24000000000 (Datetime.utc 1700000000000000) none plan := by
  refine ⟨by rfl, fun h => ?_⟩
  have hplan := (select_purge_spec_iff [] 1 24000000000 _ _).mp h
  exact absurd hplan.1 (by decide)

section

variable {stored : List StoredBackup} {keep grace_hours : ℕ} {now : Datetime}
  {in_progress_id : Option String} {plan : PurgePlan}

/-- What is left of the listing when the ids of `removed` are gone. -/
def remaining (stored : List StoredBackup) (removed : List String) : List StoredBackup :=
  stored.filter (·.backup_id ∉ removed)

theorem remaining_append (stored : List StoredBackup) (removed removed' : List String) :
    remaining stored (removed ++ removed') = remaining (remaining stored removed) removed' := by
  unfold remaining
  rw [List.filter_filter]
  apply List.filter_congr
  intro b _
  simp [Bool.and_comm]

theorem take_append_filter {α : Type} (k : ℕ) (l : List α) (p : α → Bool) :
    (l.take k ++ (l.drop k).filter p).take k = l.take k ∧
      (l.take k ++ (l.drop k).filter p).drop k = (l.drop k).filter p := by
  rcases Nat.le_total k l.length with hk | hk
  · have hlen : (l.take k).length = k := by
      rw [List.length_take]
      omega
    exact ⟨List.take_left' hlen, List.drop_left' hlen⟩
  · have hdrop : l.drop k = [] := List.drop_eq_nil_of_le hk
    have htake : l.take k = l := List.take_of_length_le hk
    rw [hdrop, htake, List.filter_nil, List.append_nil, htake, hdrop]
    exact ⟨rfl, rfl⟩

/-- Of the newest entries those that stay are the same when some of the others have gone. -/
theorem newestFirst_remaining (keep : ℕ) {l : List StoredBackup}
    (hnodup : (l.map (·.backup_id)).Nodup)
    {removed : List String} (hkept : ∀ b ∈ (newestFirst l).take keep, b.backup_id ∉ removed) :
    newestFirst (remaining l removed) = (newestFirst l).take keep ++
      ((newestFirst l).drop keep).filter (·.backup_id ∉ removed) := by
  have hfilter : (newestFirst l).filter (·.backup_id ∉ removed) = (newestFirst l).take keep ++
      ((newestFirst l).drop keep).filter (·.backup_id ∉ removed) := by
    have hall : ((newestFirst l).take keep).filter (·.backup_id ∉ removed) =
        (newestFirst l).take keep :=
      List.filter_eq_self.mpr (fun b hb => decide_eq_true (hkept b hb))
    rw [← List.take_append_drop keep (newestFirst l), List.filter_append, hall,
      List.take_append_drop]
  rw [← hfilter]
  apply (newestFirst_eq (hnodup.sublist (List.filter_sublist.map _)) _ _).symm
  · exact (List.perm_insertionSort _ _).filter _
  · exact (sorted_newestFirst l).sublist List.filter_sublist

/-- Deciding again, when some of the ids of the plan are gone, keeps the same ids and condemns the
others of the plan. -/
theorem select_purge_remaining (hnodup : (stored.map (·.backup_id)).Nodup)
    (hplan : select_purge stored keep grace_hours now in_progress_id = .ok plan)
    {removed : List String} (hremoved : removed ⊆ plan.delete) :
    select_purge (remaining stored removed) keep grace_hours now in_progress_id =
      .ok ⟨plan.keep, plan.delete.filter (· ∉ removed)⟩ := by
  have hplannable := plannable_of_ok hplan
  have hdisjoint :=
    (show PurgeSpec stored keep _ _ _ _ from select_purge_spec hplannable).disjoint hnodup
  rw [plan_eq hplan] at hremoved ⊢
  have hkept : ∀ b ∈ keptEntries stored keep grace_hours now in_progress_id,
      b.backup_id ∉ removed := fun b hb hgone =>
    hdisjoint (List.mem_map_of_mem hb) (hremoved hgone)
  have hcomplete : (remaining stored removed).filter (·.complete) =
      remaining (stored.filter (·.complete)) removed := List.filter_comm _ _ _
  have hincomplete : (remaining stored removed).filter (!·.complete) =
      remaining (stored.filter (!·.complete)) removed := List.filter_comm _ _ _
  have hsorted := newestFirst_remaining keep (nodup_complete hnodup)
    (fun b hb => hkept b (List.mem_append_left _ hb))
  obtain ⟨htake, hdrop⟩ := take_append_filter keep (newestFirst (stored.filter (·.complete)))
    (·.backup_id ∉ removed)
  have hspared : (remaining (stored.filter (!·.complete)) removed).filter
      (¬ Overdue (grace_hours * 3600000000) now in_progress_id ·) =
        (stored.filter (!·.complete)).filter
          (¬ Overdue (grace_hours * 3600000000) now in_progress_id ·) := by
    unfold remaining
    rw [List.filter_comm]
    exact List.filter_eq_self.mpr (fun b hb =>
      decide_eq_true (hkept b (List.mem_append_right _ hb)))
  have hover : (remaining (stored.filter (!·.complete)) removed).filter
      (Overdue (grace_hours * 3600000000) now in_progress_id ·) =
        ((stored.filter (!·.complete)).filter
          (Overdue (grace_hours * 3600000000) now in_progress_id ·)).filter
            (·.backup_id ∉ removed) := List.filter_comm _ _ _
  have hagain : Plannable (remaining stored removed) grace_hours now in_progress_id :=
    ⟨hplannable.1, fun b hb => hplannable.2 b (List.mem_of_mem_filter hb)⟩
  rw [select_purge_ok hagain]
  unfold keptEntries goneEntries
  rw [hcomplete, hincomplete, hsorted, htake, hdrop, hspared, hover, ← List.filter_append,
    List.filter_map]
  rfl

end

end MbKeeper
