import Locron.Schedule.Bounds

set_option autoImplicit false

/-! # The order of selected occurrences

A reconciliation lists what it selects in the order of time: intervals and one-time schedules
always, calendar expressions as long as the zone resolves wall clocks in their order. The walk over
a calendar expression goes by local dates, so the order of its list is the order of wall clocks.
-/

namespace Locron

/-- Later wall clocks resolve to later instants. It fails only if the zone shows a wall clock that
it skipped earlier on. -/
def Zone.ResolvesInOrder (zone : Zone) : Prop :=
  ∀ ⦃v w t u : Int⦄, zone.resolve v = some t → zone.resolve w = some u → v < w → t < u

theorem Zone.utc_resolvesInOrder : Zone.utc.ResolvesInOrder := by
  intro v w t u ht hu hlt
  rw [Zone.utc_resolve, Option.some.injEq] at ht hu
  omega

/-! ## Intervals -/

theorem sortedLT_intervalNewest {interval : Nat} {anchor after through : Int} {limit : Nat}
    {l : List Int} (h : intervalNewest interval anchor after through limit = .ok l) :
    l.SortedLT := by
  unfold intervalNewest at h
  split at h
  · cases h
  · cases h
    exact List.sortedLT_iff_pairwise.mpr List.Pairwise.nil
  next step first last hbounds =>
  have hv := validInterval_of_bounds hbounds
  rw [intervalBounds_eq hv, Except.ok.injEq, Option.ite_none_right_eq_some] at hbounds
  obtain ⟨-, hbounds⟩ := hbounds
  cases hbounds
  have hpos : (0 : Int) < interval := by
    have := hv.whole_seconds.1
    omega
  rw [intervalAll_ok h, List.sortedLT_iff_pairwise, List.pairwise_map]
  refine (List.sortedLT_iff_pairwise.mp (Blocks.sortedLT_range _ _)).imp ?_
  intro i j hij
  have := Int.mul_lt_mul_of_pos_right hij hpos
  omega

/-! ## Calendar expressions -/

namespace CronExpression

variable (e : CronExpression) {zone : Zone}

/-- An occurrence is what its own wall clock resolves to. -/
theorem resolve_of_occurs {t : Int} (h : e.Occurs zone t) :
    zone.resolve (zone.localTime t) = some t := by
  obtain ⟨day, hday⟩ := h
  obtain ⟨-, hour, -, minute, -, hresolve⟩ := (e.mem_dayOccurrences zone).mp hday
  rw [zone.localTime_of_resolve hresolve]
  exact hresolve

theorem lt_of_localDay_lt (hzone : zone.ResolvesInOrder) {t u : Int} (ht : e.Occurs zone t)
    (hu : e.Occurs zone u) (hlt : zone.localDay t < zone.localDay u) : t < u := by
  refine hzone (e.resolve_of_occurs ht) (e.resolve_of_occurs hu) ?_
  unfold Zone.localDay dayMicros at hlt
  omega

/-- Dates are walked backwards, and each is put in front of the later ones. -/
theorem sortedLT_newestLoop (hzone : zone.ResolvesInOrder) {after through : Int} {limit : Nat}
    {lower : Date} {fuel : Nat} {date : Option Date} {l : List Int}
    (h : e.newestLoop after through limit zone lower fuel date [] = .ok l) : l.SortedLT := by
  suffices hsorted : (∀ t ∈ l, e.Occurs zone t) ∧ l.Pairwise (· < ·) from
    List.sortedLT_iff_pairwise.mpr hsorted.2
  refine e.newestLoop_induction
    (motive := fun l => (∀ t ∈ l, e.Occurs zone t) ∧ l.Pairwise (· < ·)) ?_ h
    ⟨by simp, List.Pairwise.nil⟩ (by simp)
  rintro day newest kept ⟨hoccurs, hpairwise⟩ hlater hsub -
  have hmem : ∀ t ∈ kept.reverse, t ∈ e.dayOccurrences zone day := fun t ht =>
    List.mem_reverse.mp (hsub.subset (List.mem_reverse.mp ht))
  have hkept : kept.reverse.Sublist (e.dayOccurrences zone day) := by
    rw [← List.reverse_reverse (e.dayOccurrences zone day)]
    exact hsub.reverse
  refine ⟨?_, List.pairwise_append.mpr ⟨?_, hpairwise, ?_⟩⟩
  · intro t ht
    rcases List.mem_append.mp ht with ht | ht
    · exact ⟨day, hmem t ht⟩
    · exact hoccurs t ht
  · exact (List.sortedLT_iff_pairwise.mp (e.sortedLT_dayOccurrences zone day)).sublist hkept
  · intro t ht u hu
    refine e.lt_of_localDay_lt hzone ⟨day, hmem t ht⟩ (hoccurs u hu) ?_
    rw [e.localDay_of_mem zone (hmem t ht)]
    exact hlater u hu

end CronExpression

/-! ## Reconciliation -/

namespace CompiledSchedule

/-- The zone of the schedule, if it needs one, resolves wall clocks in order. -/
def InOrder (zones : ZoneTable) (localZone : Zone) : CompiledSchedule → Prop
  | .cron _ timezone => ∀ zone, timezone.resolveWith zones localZone = .ok zone →
      zone.ResolvesInOrder
  | _ => True

variable {s : CompiledSchedule} {zones : ZoneTable} {localZone : Zone} {after now : Int}

theorem sortedLT_newestBetween (hs : s.InOrder zones localZone) {limit : Nat} {l : List Int}
    (h : s.newestBetween zones localZone after now limit = .ok l) : l.SortedLT := by
  unfold newestBetween at h
  split at h
  · cases h
    exact List.sortedLT_iff_pairwise.mpr List.Pairwise.nil
  cases s with
  | «at» at_ =>
    cases h
    exact sortedLT_atList at_ after now
  | every interval anchor => exact sortedLT_intervalNewest h
  | cron e timezone =>
    simp only at h
    split at h
    · cases h
    next zone hzone =>
    obtain ⟨lower, -, h⟩ := Except.bind_eq_ok.mp h
    obtain ⟨upper, -, h⟩ := Except.bind_eq_ok.mp h
    obtain ⟨date, -, h⟩ := Except.bind_eq_ok.mp h
    exact e.sortedLT_newestLoop (hs zone hzone) h

theorem retained_sublist (missedRun : MissedRunPolicy) (l : List Int) :
    (retained missedRun l).Sublist l := by
  cases missedRun with
  | all => exact .refl l
  | skip => exact List.nil_sublist l
  | latest => exact List.drop_sublist _ l

/-- Selecting keeps the order. -/
theorem selectOccurrences_sublist (elapsed : ElapsedKind) (missedRun : MissedRunPolicy)
    (newest : List Int) :
    ((selectOccurrences elapsed missedRun newest).map (fun o => o.nominal)).Sublist newest := by
  have hcatchUps : ∀ l : List Int, (((retained missedRun l).map
      (fun t => (⟨t, true⟩ : SelectedOccurrence))).map (fun o => o.nominal)).Sublist l := by
    intro l
    rw [List.map_map, show (fun o : SelectedOccurrence => o.nominal) ∘
      (fun t => (⟨t, true⟩ : SelectedOccurrence)) = id from rfl, List.map_id]
    exact retained_sublist missedRun l
  unfold selectOccurrences
  split
  · exact hcatchUps newest
  split
  · exact List.nil_sublist newest
  next normal hlast =>
  have hsplit : newest.dropLast ++ [normal] = newest :=
    List.dropLast_append_getLast? normal hlast
  have hsub := (hcatchUps newest.dropLast).append (.refl [normal])
  rw [hsplit] at hsub
  rw [List.map_append]
  exact hsub

/-- **A reconciliation selects in the order of time.** -/
theorem selected_sorted (hs : s.InOrder zones localZone) {missedRun : MissedRunPolicy}
    {startDeadline : Option Nat} {limit : Nat} {elapsed : ElapsedKind} {r : ScheduleReconciliation}
    (h : s.reconcile zones localZone after now missedRun startDeadline limit elapsed = .ok r) :
    r.selected.Pairwise (fun o o' => o.nominal < o'.nominal) := by
  rcases selected_of_reconcile h with ⟨-, hnil⟩ | ⟨newest, hnewest, hselected⟩
  · rw [hnil]
    exact List.Pairwise.nil
  have hsorted := List.sortedLT_iff_pairwise.mp (sortedLT_newestBetween hs hnewest)
  rw [hselected, ← List.pairwise_map (f := fun o : SelectedOccurrence => o.nominal) (R := (· < ·))]
  exact hsorted.sublist (selectOccurrences_sublist elapsed missedRun newest)

end CompiledSchedule

end Locron
