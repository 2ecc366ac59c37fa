import Locron.Schedule.Accounting
import Locron.Schedule.CronExact
import Locron.Schedule.IntervalExact

set_option autoImplicit false

/-! # Reconciliation accounts exactly

For each kind of schedule, counting and selection agree with a list of occurrences
(`enumerates_at`, `enumerates_every`, `enumerates_cron`), so that reconciliation accounts for that
list. Whether the list is that of all occurrences of the range is the exact condition under which
reconciliation is right.
-/

namespace Locron

namespace CompiledSchedule

variable (zones : ZoneTable) (localZone : Zone)

def Occurs : CompiledSchedule → Int → Prop
  | .at at_, t => t = at_
  | .every interval anchor, t => ∃ k : Nat, t = anchor + k * interval
  | .cron e timezone, t => ∃ zone, timezone.resolveWith zones localZone = .ok zone ∧ e.Occurs zone t

end CompiledSchedule

structure OccurrenceList (s : CompiledSchedule) (zones : ZoneTable) (localZone : Zone)
    (after now : Int) (occ : List Int) : Prop where
  sorted : occ.SortedLT
  mem_iff : ∀ t, t ∈ occ ↔ after < t ∧ t ≤ now ∧ s.Occurs zones localZone t

theorem eq_window {l occ : List Int} {x y : Int} (hl : l.SortedLT) (hocc : occ.SortedLT)
    (h : ∀ t, t ∈ l ↔ t ∈ occ ∧ x < t ∧ t ≤ y) : l = Increasing.window occ x y := by
  apply hl.eq_of_mem_iff (Increasing.sortedLT_window hocc x y)
  intro t
  rw [h, Increasing.mem_window]

/-! ## One-time schedules -/

section At

variable (zones : ZoneTable) (localZone : Zone) (at_ : Int)

/-- The occurrences of a one-time schedule. -/
def atList (lo hi : Int) : List Int := if lo < at_ ∧ at_ ≤ hi then [at_] else []

theorem mem_atList {lo hi t : Int} : t ∈ atList at_ lo hi ↔ t = at_ ∧ lo < t ∧ t ≤ hi := by
  unfold atList
  split
  · rw [List.mem_singleton]
    constructor
    · rintro rfl
      exact ⟨rfl, by omega, by omega⟩
    · exact fun h => h.1
  · simp only [List.not_mem_nil, false_iff]
    omega

theorem sortedLT_atList (lo hi : Int) : (atList at_ lo hi).SortedLT := by
  unfold atList
  rw [List.sortedLT_iff_pairwise]
  split <;> simp

theorem window_atList {lo hi x y : Int} (hlo : lo ≤ x) (hhi : y ≤ hi) :
    atList at_ x y = Increasing.window (atList at_ lo hi) x y := by
  apply eq_window (sortedLT_atList at_ x y) (sortedLT_atList at_ lo hi)
  intro t
  rw [mem_atList, mem_atList]
  omega

theorem enumerates_at (lo hi : Int) :
    Enumerates (.at at_) zones localZone lo hi (atList at_ lo hi) where
  sorted := sortedLT_atList at_ lo hi
  bounds := fun t ht => ((mem_atList at_).mp ht).2
  stats := by
    intro x y hlo hxy hhi
    rw [← window_atList at_ hlo hhi]
    unfold CompiledSchedule.rangeStats atList
    rw [if_neg (by omega)]
    simp only
    split <;> rfl
  newest := by
    intro x y n hlo hxy hhi hn
    rw [← window_atList at_ hlo hhi]
    unfold CompiledSchedule.newestBetween atList
    rw [if_neg (by omega)]
    simp only
    split
    · simp [List.rtake, show 1 - n = 0 by omega]
    · rw [List.rtake_nil]

end At

/-! ## Interval schedules -/

section Every

variable (zones : ZoneTable) (localZone : Zone) {interval : Nat} (hv : ValidInterval interval)
  {anchor : Int}

include hv

theorem window_intervalList {lo hi x y : Int} (hlo : lo ≤ x) (hhi : y ≤ hi) :
    intervalList interval anchor x y
      = Increasing.window (intervalList interval anchor lo hi) x y := by
  have hpos : 0 < interval := by
    have := hv.whole_seconds.1
    omega
  apply eq_window (sortedLT_intervalList hpos) (sortedLT_intervalList hpos)
  intro t
  rw [mem_intervalList hv, mem_intervalList hv]
  constructor
  · rintro ⟨h1, h2, h3⟩
    exact ⟨⟨by omega, by omega, h3⟩, h1, h2⟩
  · rintro ⟨⟨-, -, h3⟩, h1, h2⟩
    exact ⟨h1, h2, h3⟩

theorem enumerates_every (ha : InI64 anchor) {lo hi : Int} (hlo64 : InI64 lo) (hhi64 : InI64 hi) :
    Enumerates (.every interval anchor) zones localZone lo hi
      (intervalList interval anchor lo hi) where
  sorted := sortedLT_intervalList (by have := hv.whole_seconds.1; omega)
  bounds := by
    intro t ht
    have := (mem_intervalList hv).mp ht
    exact ⟨this.1, this.2.1⟩
  stats := by
    intro x y hlo hxy hhi
    have hy : InI64 y := ⟨by rcases hlo64 with ⟨h, -⟩; omega, by rcases hhi64 with ⟨-, h⟩; omega⟩
    rw [← window_intervalList hv hlo hhi]
    unfold CompiledSchedule.rangeStats
    rw [if_neg (by omega)]
    exact intervalRangeStats_eq hv ha hy
  newest := by
    intro x y n hlo hxy hhi hn
    have hy : InI64 y := ⟨by rcases hlo64 with ⟨h, -⟩; omega, by rcases hhi64 with ⟨-, h⟩; omega⟩
    rw [← window_intervalList hv hlo hhi]
    unfold CompiledSchedule.newestBetween
    rw [if_neg (by omega)]
    exact intervalNewest_eq hv ha hy hn

end Every

/-! ## Cron schedules -/

section Cron

variable {lo hi : Int}

variable {zones : ZoneTable} {localZone zone : Zone} {timezone : ScheduleTimeZone}
  (hzone : timezone.resolveWith zones localZone = .ok zone) {e : CronExpression}

include hzone

theorem rangeStats_cron {x y : Int} (hxy : x < y) :
    (CompiledSchedule.cron e timezone).rangeStats zones localZone x y = e.rangeStats x y zone := by
  unfold CompiledSchedule.rangeStats
  rw [if_neg (by omega)]
  simp only [hzone]

theorem newestBetween_cron {x y : Int} (hxy : x < y) {n : Nat} (hn : 0 < n) :
    (CompiledSchedule.cron e timezone).newestBetween zones localZone x y n
      = e.newestBetween x y n zone := by
  unfold CompiledSchedule.newestBetween
  rw [if_neg (by omega)]
  simp only [hzone]

theorem enumerates_cron (h : e.CountsInOrder zone lo hi) :
    Enumerates (.cron e timezone) zones localZone lo hi (e.seen zone lo hi) where
  sorted := h.inOrder.sortedLT_seen le_rfl le_rfl
  bounds := fun t ht => ((e.mem_seen zone).mp ht).2.1
  stats := by
    intro x y h1 hxy h2
    obtain ⟨hx, hy, hsup⟩ := h.supported x y h1 hxy h2
    rw [← h.inOrder.seen_eq_window h1 hxy.le h2, rangeStats_cron hzone hxy]
    exact e.rangeStats_ofList hx hy hxy.le hsup (h.fresh x y h1 hxy h2)
  newest := by
    intro x y n h1 hxy h2 hn
    obtain ⟨hx, hy, hsup⟩ := h.supported x y h1 hxy h2
    rw [← h.inOrder.seen_eq_window h1 hxy.le h2, newestBetween_cron hzone hxy hn]
    exact e.newestBetween_eq zone hx hy hn hsup

end Cron

/-! ## Where reconciliation is right -/

/-- Reconciliation succeeds and accounts exactly for the occurrences of the range. -/
def ReconcilesExactly (s : CompiledSchedule) (zones : ZoneTable) (localZone : Zone)
    (after now : Int) (missedRun : MissedRunPolicy) (startDeadline : Option Nat) (limit : Nat)
    (elapsed : ElapsedKind) : Prop :=
  ∃ r occ, s.reconcile zones localZone after now missedRun startDeadline limit elapsed = .ok r ∧
    OccurrenceList s zones localZone after now occ ∧
    ExactAccounting occ (occ.filter (fun t => WithinDeadline now startDeadline t))
      elapsed missedRun limit r

/-- Every occurrence of the range is in reach of the arithmetic: an interval fits an `i64` and its
occurrences are at most `i64::MAX` microseconds after the anchor; the two ends of a cron range are
supported instants and so are all times of their local dates. -/
def InReach (zones : ZoneTable) (localZone : Zone) (after now : Int) : CompiledSchedule → Prop
  | .at _ => True
  | .every interval anchor => (interval : Int) ≤ i64Max ∧
      ∀ k : Nat, after < anchor + k * interval → anchor + k * interval ≤ now →
        (k * interval : Int) ≤ i64Max
  | .cron e timezone => ∃ zone, timezone.resolveWith zones localZone = .ok zone ∧
      Supported after ∧ Supported now ∧ e.DaySupported zone (zone.localDay after) ∧
      e.DaySupported zone (zone.localDay now)

/-- A start deadline above `i64::MAX` cuts off no occurrence that it should admit. -/
def DeadlineInReach (s : CompiledSchedule) (zones : ZoneTable) (localZone : Zone) (after now : Int)
    (startDeadline : Option Nat) : Prop :=
  ∀ deadline ∈ startDeadline, ∀ t, s.Occurs zones localZone t → after < t → t ≤ now →
    now - deadline ≤ t → now - i64Max ≤ t

/-- What compilation and the types promise: whole-second intervals and `i64` instants; for cron,
here, a zone whose local date never decreases. -/
def Admissible (zones : ZoneTable) (localZone : Zone) : CompiledSchedule → Prop
  | .at _ => True
  | .every interval anchor => 1000000 ≤ interval ∧ interval % 1000000 = 0 ∧ InI64 anchor
  | .cron _ timezone => ∃ zone, timezone.resolveWith zones localZone = .ok zone ∧ zone.DateMonotone

/-- What compilation and the types promise of every schedule: whole-second intervals with an `i64`
anchor, and a time zone that the host knows. -/
def CompiledSchedule.Valid (zones : ZoneTable) (localZone : Zone) : CompiledSchedule → Prop
  | .at _ => True
  | .every interval anchor => 1000000 ≤ interval ∧ interval % 1000000 = 0 ∧ InI64 anchor
  | .cron _ timezone => ∃ zone, timezone.resolveWith zones localZone = .ok zone

theorem CompiledSchedule.Valid.admissible {s : CompiledSchedule} {zones : ZoneTable}
    {localZone : Zone} (h : s.Valid zones localZone) (hmono : ∀ e timezone zone,
      s = .cron e timezone → timezone.resolveWith zones localZone = .ok zone → zone.DateMonotone) :
    Admissible zones localZone s := by
  cases s with
  | «at» | every => exact h
  | cron e timezone =>
    obtain ⟨zone, hzone⟩ := h
    exact ⟨zone, hzone, hmono e timezone zone rfl hzone⟩

/-- A zone that the host knows is resolved alike at compilation and afterwards. -/
theorem Schedule.valid_of_compile {zones : ZoneTable} {localZone systemZone : Zone}
    {schedule : Schedule} {s : CompiledSchedule} (h : schedule.compile zones systemZone = .ok s)
    (hanchor : ∀ interval anchor, schedule = .every interval anchor → InI64 anchor) :
    s.Valid zones localZone := by
  cases schedule with
  | cron expression timezone =>
    unfold Schedule.compile at h
    cases hzone : timezone.resolveWith zones systemZone with
    | error err => simp only [hzone] at h; cases h
    | ok zone =>
      simp only [hzone] at h
      split at h
      · cases h
      next e he =>
      cases h
      cases timezone with
      | «local» => exact ⟨_, rfl⟩
      | iana name => exact ⟨zone, hzone⟩
  | every interval anchor =>
    unfold Schedule.compile intervalOccurrences at h
    dsimp only at h
    by_cases hbad : interval < 1000000 ∨ interval % 1000000 ≠ 0
    · rw [if_pos hbad] at h
      cases h
    rw [if_neg hbad, if_pos rfl] at h
    cases h
    exact ⟨by omega, by omega, hanchor interval anchor rfl⟩
  | «at» at_ =>
    cases h
    trivial

/-- The instant can be the end of a range that is counted. -/
def EndSupported (zones : ZoneTable) (localZone : Zone) (x : Int) : CompiledSchedule → Prop
  | .at _ => True
  | .every interval _ => (interval : Int) ≤ i64Max
  | .cron e timezone => ∃ zone, timezone.resolveWith zones localZone = .ok zone ∧ Supported x ∧
      e.DaySupported zone (zone.localDay x)

/-- The distance of the instant from the anchor fits an `i64`. -/
def CompiledSchedule.Reaches : CompiledSchedule → Int → Prop
  | .every _ anchor, t => t ≤ anchor + i64Max
  | _, _ => True

section Exact

variable {s : CompiledSchedule} {zones : ZoneTable} {localZone : Zone} {after now : Int}

/-- **Between supported ends, counting and selection agree with the occurrences in reach.** -/
theorem exists_enumerates (hs : Admissible zones localZone s) (hafter : InI64 after)
    (hnow : InI64 now) (hlo : EndSupported zones localZone after s)
    (hhi : EndSupported zones localZone now s) :
    ∃ occ, Enumerates s zones localZone after now occ ∧
      ∀ t, t ∈ occ ↔ (after < t ∧ t ≤ now ∧ s.Occurs zones localZone t) ∧ s.Reaches t := by
  cases s with
  | «at» at_ =>
    refine ⟨_, enumerates_at zones localZone at_ after now, fun t => ?_⟩
    rw [mem_atList]
    exact ⟨fun h => ⟨⟨h.2.1, h.2.2, h.1⟩, trivial⟩, fun h => ⟨h.1.2.2, h.1.1, h.1.2.1⟩⟩
  | every interval anchor =>
    obtain ⟨h1, h2, ha⟩ := hs
    have hv : ValidInterval interval := ⟨hlo, h1, h2⟩
    refine ⟨_, enumerates_every zones localZone hv ha hafter hnow, fun t => ?_⟩
    -- the list ends where the product would overflow, which is the bound of `Reaches`
    have hreaches : ∀ k : Nat, (k * interval : Int) ≤ i64Max ↔
        (CompiledSchedule.every interval anchor).Reaches (anchor + k * interval) := by
      intro k
      unfold CompiledSchedule.Reaches
      omega
    rw [mem_intervalList hv]
    constructor
    · rintro ⟨h1, h2, k, rfl, hk⟩
      exact ⟨⟨h1, h2, k, rfl⟩, (hreaches k).mp hk⟩
    · rintro ⟨⟨h1, h2, k, rfl⟩, hk⟩
      exact ⟨h1, h2, k, rfl, (hreaches k).mpr hk⟩
  | cron e timezone =>
    obtain ⟨zone, hzone, hmono⟩ := hs
    obtain ⟨zone₁, hzone₁, ha, hlower⟩ := hlo
    obtain ⟨zone₂, hzone₂, ht, hupper⟩ := hhi
    cases hzone.symm.trans hzone₁
    cases hzone.symm.trans hzone₂
    refine ⟨_, enumerates_cron hzone (e.countsInOrder_of_monotone hmono ha ht hlower hupper),
      fun t => ?_⟩
    rw [e.mem_seen_of_monotone hmono]
    constructor
    · rintro ⟨h1, h2, hocc⟩
      exact ⟨⟨h1, h2, zone, hzone, hocc⟩, trivial⟩
    · rintro ⟨⟨h1, h2, zone', hzone', hocc⟩, -⟩
      cases hzone.symm.trans hzone'
      exact ⟨h1, h2, hocc⟩

/-- In reach, counting and selection agree with all occurrences. -/
theorem enumerates_of_inReach (hs : Admissible zones localZone s)
    (hreach : InReach zones localZone after now s) (hafter : InI64 after) (hnow : InI64 now) :
    ∃ occ, Enumerates s zones localZone after now occ ∧
      OccurrenceList s zones localZone after now occ := by
  have hends : EndSupported zones localZone after s ∧ EndSupported zones localZone now s ∧
      ∀ t, after < t → t ≤ now → s.Occurs zones localZone t → s.Reaches t := by
    cases s with
    | «at» at_ => exact ⟨trivial, trivial, fun _ _ _ _ => trivial⟩
    | every interval anchor =>
      refine ⟨hreach.1, hreach.1, ?_⟩
      rintro t h1 h2 ⟨k, rfl⟩
      have := hreach.2 k h1 h2
      unfold CompiledSchedule.Reaches
      omega
    | cron e timezone =>
      obtain ⟨zone, hzone, ha, ht, hlower, hupper⟩ := hreach
      exact ⟨⟨zone, hzone, ha, hlower⟩, ⟨zone, hzone, ht, hupper⟩, fun _ _ _ _ => trivial⟩
  obtain ⟨hlo, hhi, hall⟩ := hends
  obtain ⟨occ, henum, hmem⟩ := exists_enumerates hs hafter hnow hlo hhi
  refine ⟨occ, henum, henum.sorted, fun t => ?_⟩
  rw [hmem]
  exact and_iff_left_of_imp fun h => hall t h.1 h.2.1 h.2.2

variable {startDeadline : Option Nat}

/-- Within reach, the deadline arithmetic draws the line where the deadline does. -/
theorem lt_iff_withinDeadline {t : Int} (hafter : InI64 after) (hnow : InI64 now) (ht : after < t)
    (hclamp : ∀ deadline ∈ startDeadline, now - deadline ≤ t → now - i64Max ≤ t) :
    deadlineAfter after now startDeadline < t ↔ WithinDeadline now startDeadline t := by
  rcases hafter with ⟨h1, h2⟩
  rcases hnow with ⟨h3, h4⟩
  cases startDeadline with
  | none => simp [deadlineAfter, WithinDeadline, ht]
  | some deadline =>
    have hclamp' := hclamp deadline rfl
    have hwithin : WithinDeadline now (some deadline) t ↔ now - deadline ≤ t := by
      simp [WithinDeadline]
    rw [hwithin]
    show max after (saturate (saturate (now - (i64OfNat deadline).getD i64Max) - 1)) < t ↔ _
    unfold i64OfNat
    by_cases hmax : (deadline : Int) ≤ i64Max
    · rw [if_pos hmax, Option.getD_some]
      unfold saturate
      omega
    rw [if_neg hmax, Option.getD_none]
    unfold saturate i64Min i64Max at *
    omega

variable {limit : Nat}

theorem reconcilesExactly_of_inReach (hs : Admissible zones localZone s) (hafter : InI64 after)
    (hnow : InI64 now) (hlt : after < now) (hreach : InReach zones localZone after now s)
    (hdeadline : DeadlineInReach s zones localZone after now startDeadline)
    (missedRun : MissedRunPolicy) (hlimit : 1 ≤ limit ∧ limit ≤ 1000)
    (elapsed : ElapsedKind) :
    ReconcilesExactly s zones localZone after now missedRun startDeadline limit elapsed := by
  obtain ⟨occ, henum, hocc⟩ := enumerates_of_inReach hs hreach hafter hnow
  refine ⟨_, occ, reconcile_of_enumerates henum hafter hnow hlt elapsed missedRun startDeadline
    hlimit, hocc, ?_⟩
  obtain ⟨hlo, hhi⟩ := deadlineAfter_bounds hafter hnow hlt startDeadline
  have hsplit := Increasing.window_append henum.sorted hlo hhi.le
  rw [Increasing.window_eq_self henum.bounds] at hsplit
  have heligible : occ.filter (fun t => WithinDeadline now startDeadline t)
      = Increasing.window occ (deadlineAfter after now startDeadline) now := by
    unfold Increasing.window
    apply List.filter_congr
    intro t ht
    obtain ⟨h1, h2, hoccurs⟩ := (hocc.mem_iff t).mp ht
    rw [decide_eq_decide, ← lt_iff_withinDeadline hafter hnow h1
      (fun d hd h => hdeadline d hd t hoccurs h1 h2 h)]
    exact ⟨fun h => ⟨h, h2⟩, fun h => h.1⟩
  rw [heligible]
  have hexact := account_exact (hsplit ▸ henum.sorted) elapsed missedRun limit
  rw [← hsplit] at hexact
  exact hexact

/-- A cron range that could be counted has supported ends and boundary dates. -/
theorem inReach_of_rangeStats {e : CronExpression} {timezone : ScheduleTimeZone} {zone : Zone}
    (hzone : timezone.resolveWith zones localZone = .ok zone) {x y : Int} (hxy : x < y)
    (hle : zone.localDay x ≤ zone.localDay y) {stats : OccurrenceStats}
    (h : (CompiledSchedule.cron e timezone).rangeStats zones localZone x y = .ok stats) :
    Supported x ∧ Supported y ∧ e.DaySupported zone (zone.localDay x) ∧
      e.DaySupported zone (zone.localDay y) := by
  rw [rangeStats_cron hzone hxy] at h
  obtain ⟨⟨hx, hy⟩, hsup⟩ := e.supported_of_rangeStats zone h
  exact ⟨hx, hy, hsup _ le_rfl hle fun h => lt_irrefl _ h.1,
    hsup _ hle le_rfl fun h => lt_irrefl _ h.2.1⟩

/-- An interval that could be counted fits an `i64`. -/
theorem le_max_of_rangeStats {interval : Nat} {anchor x y : Int} (hxy : x < y)
    {stats : OccurrenceStats}
    (h : (CompiledSchedule.every interval anchor).rangeStats zones localZone x y = .ok stats) :
    (interval : Int) ≤ i64Max := by
  by_contra hcon
  unfold CompiledSchedule.rangeStats intervalRangeStats intervalBounds i64OfNat at h
  rw [if_neg (by omega)] at h
  simp only [if_neg hcon] at h
  cases h

variable {missedRun : MissedRunPolicy} {elapsed : ElapsedKind}

/-- A result that accounts for all occurrences of an interval reaches all of them. -/
theorem reach_every {interval : Nat} {anchor : Int} (hv : ValidInterval interval)
    (ha : InI64 anchor) (hafter : InI64 after) (hnow : InI64 now) (hlt : after < now)
    (hlimit : 1 ≤ limit ∧ limit ≤ 1000)
    (h : ReconcilesExactly (.every interval anchor) zones localZone after now missedRun
      startDeadline limit elapsed) (k : Nat) (hk1 : after < anchor + k * interval)
    (hk2 : anchor + k * interval ≤ now) : (k * interval : Int) ≤ i64Max := by
  obtain ⟨r, occ, hr, hocc, hexact⟩ := h
  have henum := enumerates_every zones localZone hv ha hafter hnow
  set reached := intervalList interval anchor after now
  obtain ⟨hlo, hhi⟩ := deadlineAfter_bounds hafter hnow hlt startDeadline
  have hsplit := Increasing.window_append henum.sorted hlo hhi.le
  rw [Increasing.window_eq_self henum.bounds] at hsplit
  -- the result counts the reached occurrences, and by exactness all occurrences
  have hcode := account_exact (hsplit ▸ henum.sorted) elapsed missedRun limit
  rw [reconcile_of_enumerates henum hafter hnow hlt elapsed missedRun startDeadline hlimit] at hr
  cases hr
  have hlen : occ.length = reached.length := by
    rw [← hexact.accountedCount_eq, hcode.accountedCount_eq, ← hsplit]
  have hsub : reached ⊆ occ := by
    intro t ht
    obtain ⟨h1, h2, k, hk, -⟩ := (mem_intervalList hv).mp ht
    exact (hocc.mem_iff t).mpr ⟨h1, h2, k, hk⟩
  have hperm := (henum.sorted.nodup.subperm hsub).perm_of_length_le hlen.le
  have hmem : anchor + k * interval ∈ reached :=
    hperm.symm.subset ((hocc.mem_iff _).mpr ⟨hk1, hk2, k, rfl⟩)
  obtain ⟨-, -, k', hk', hle⟩ := (mem_intervalList hv).mp hmem
  omega

/-- An exact result cuts off nothing that the start deadline admits. -/
theorem deadlineInReach_of_exact {occ : List Int}
    (hocc : OccurrenceList s zones localZone after now occ) (hafter : InI64 after)
    (hnow : InI64 now)
    (hexact : ExactAccounting occ (occ.filter (fun t => WithinDeadline now startDeadline t))
      elapsed missedRun limit
      (account (Increasing.window occ after (deadlineAfter after now startDeadline))
        (Increasing.window occ (deadlineAfter after now startDeadline) now)
        elapsed missedRun limit)) :
    DeadlineInReach s zones localZone after now startDeadline := by
  intro deadline hdeadline t hoccurs h1 h2 hadmits
  by_contra hcon
  have hcut : t ≤ deadlineAfter after now startDeadline := by
    cases hdeadline
    rcases hafter with ⟨h3, h4⟩
    rcases hnow with ⟨h5, h6⟩
    have hclamp : (i64OfNat deadline).getD i64Max ≤ i64Max := by
      unfold i64OfNat
      split
      · simpa
      · simp
    show t ≤ max after (saturate (saturate (now - (i64OfNat deadline).getD i64Max) - 1))
    unfold saturate i64Min i64Max at *
    omega
  have hin : t ∈ occ := (hocc.mem_iff t).mpr ⟨h1, h2, hoccurs⟩
  have hwithin : t ∈ occ.filter (fun t => WithinDeadline now startDeadline t) := by
    rw [List.mem_filter, decide_eq_true_eq]
    refine ⟨hin, ?_⟩
    intro d hd
    rw [hdeadline] at hd
    cases hd
    exact hadmits
  obtain ⟨hsel, covers, hcovers, hpart⟩ := hexact
  rw [hpart, List.mem_append] at hin
  rcases hin with hin | hin
  · -- an omission summary covers `t`: not as expired, and the other one starts behind the cut
    obtain ⟨range, hrange, covered, hcov, htl⟩ := exists_covers_of_mem hcovers hin
    rcases List.mem_append.mp hrange with hmem | hmem
    · exact (hcov.kind_iff t htl).mp hwithin (mem_summaryOf hmem).1
    have hfirst := (mem_summaryOf hmem).2
    have hfront : range.first
        ∈ Increasing.window occ (deadlineAfter after now startDeadline) now :=
      List.mem_of_mem_take hfirst
    have hgt := (Increasing.mem_window.mp hfront).2.1
    have hle := hcov.first_least.2 htl
    omega
  · -- everything selected is behind the cut
    have hsuffix : t ∈ Increasing.window occ (deadlineAfter after now startDeadline) now := by
      rw [← omittedFront_append elapsed missedRun limit
        (Increasing.window occ (deadlineAfter after now startDeadline) now)]
      exact List.mem_append_right _ hin
    have := (Increasing.mem_window.mp hsuffix).2.1
    omega

/-- A range that could be reconciled has ends that can be counted from. -/
theorem endSupported_of_ok (hs : Admissible zones localZone s) (hafter : InI64 after)
    (hnow : InI64 now) (hlt : after < now) {r : ScheduleReconciliation}
    (h : s.reconcile zones localZone after now missedRun startDeadline limit elapsed = .ok r) :
    EndSupported zones localZone after s ∧ EndSupported zones localZone now s := by
  obtain ⟨hlo, hhi⟩ := deadlineAfter_bounds hafter hnow hlt startDeadline
  obtain ⟨expired, eligible, -, -, hexpired, heligible, -⟩ := CompiledSchedule.reconcile_ok hlt h
  cases s with
  | «at» at_ => exact ⟨trivial, trivial⟩
  | every interval anchor =>
    have hmax := le_max_of_rangeStats hhi heligible
    exact ⟨hmax, hmax⟩
  | cron e timezone =>
    obtain ⟨zone, hzone, hmono⟩ := hs
    obtain ⟨hmid, hnow', hdayMid, hdayNow⟩ := inReach_of_rangeStats hzone hhi
      (hmono _ _ hhi.le) heligible
    refine ⟨?_, zone, hzone, hnow', hdayNow⟩
    rcases hlo.eq_or_lt with heq | hbefore
    · rw [← heq] at hmid hdayMid
      exact ⟨zone, hzone, hmid, hdayMid⟩
    -- the expired part has `after` as its lower end
    unfold CompiledSchedule.expiredStats at hexpired
    rw [if_pos hbefore] at hexpired
    obtain ⟨hafter', -, hdayAfter, -⟩ := inReach_of_rangeStats hzone hbefore
      (hmono _ _ hlo) hexpired
    exact ⟨zone, hzone, hafter', hdayAfter⟩

theorem inReach_of_exact (hs : Admissible zones localZone s) (hafter : InI64 after)
    (hnow : InI64 now) (hlt : after < now)
    (hlimit : 1 ≤ limit ∧ limit ≤ 1000)
    (h : ReconcilesExactly s zones localZone after now missedRun startDeadline limit elapsed) :
    InReach zones localZone after now s := by
  obtain ⟨r, -, hr, -⟩ := id h
  obtain ⟨hlo, hhi⟩ := endSupported_of_ok hs hafter hnow hlt hr
  cases s with
  | «at» at_ => trivial
  | every interval anchor =>
    obtain ⟨h1, h2, ha⟩ := hs
    exact ⟨hlo, reach_every ⟨hlo, h1, h2⟩ ha hafter hnow hlt hlimit h⟩
  | cron e timezone =>
    obtain ⟨zone, hzone, ha, hlower⟩ := hlo
    obtain ⟨zone', hzone', ht, hupper⟩ := hhi
    cases hzone.symm.trans hzone'
    exact ⟨zone, hzone, ha, ht, hlower, hupper⟩

theorem OccurrenceList.unique {occ occ' : List Int}
    (h : OccurrenceList s zones localZone after now occ)
    (h' : OccurrenceList s zones localZone after now occ') : occ = occ' := by
  apply h.sorted.eq_of_mem_iff h'.sorted
  intro t
  rw [h.mem_iff, h'.mem_iff]

/-- In an empty range there is nothing to account for. -/
theorem reconcilesExactly_of_le (hle : now ≤ after) (missedRun : MissedRunPolicy)
    (startDeadline : Option Nat) (hlimit : 1 ≤ limit ∧ limit ≤ 1000)
    (elapsed : ElapsedKind) :
    ReconcilesExactly s zones localZone after now missedRun startDeadline limit elapsed := by
  refine ⟨⟨[], []⟩, [], ?_, ⟨List.sortedLT_iff_pairwise.mpr List.Pairwise.nil, ?_⟩, ?_⟩
  · unfold CompiledSchedule.reconcile
    rw [if_neg (not_not.mpr hlimit), if_pos hle]
  · intro t
    simp only [List.not_mem_nil, false_iff]
    omega
  · refine ⟨?_, [], List.Forall₂.nil, rfl⟩
    cases elapsed <;> simp [expectedSelection]

/-- **Reconciliation accounts exactly for the occurrences of a range if and only if the range is
empty, or all its occurrences are in reach of the arithmetic and no clamped deadline cuts one off.**
-/
theorem reconcile_exact_iff (hs : Admissible zones localZone s) (hafter : InI64 after)
    (hnow : InI64 now) (missedRun : MissedRunPolicy) (startDeadline : Option Nat) {limit : Nat}
    (hlimit : 1 ≤ limit ∧ limit ≤ 1000) (elapsed : ElapsedKind) :
    ReconcilesExactly s zones localZone after now missedRun startDeadline limit elapsed
      ↔ (after < now → InReach zones localZone after now s ∧
          DeadlineInReach s zones localZone after now startDeadline) := by
  constructor
  · intro h hlt
    have hreach := inReach_of_exact hs hafter hnow hlt hlimit h
    refine ⟨hreach, ?_⟩
    obtain ⟨occ, henum, hocc⟩ := enumerates_of_inReach hs hreach hafter hnow
    obtain ⟨r, occ', hr, hocc', hexact⟩ := h
    rw [reconcile_of_enumerates henum hafter hnow hlt elapsed missedRun startDeadline hlimit] at hr
    cases hr
    rw [hocc'.unique hocc] at hexact
    exact deadlineInReach_of_exact hocc hafter hnow hexact
  · intro h
    by_cases hlt : after < now
    · exact reconcilesExactly_of_inReach hs hafter hnow hlt (h hlt).1 (h hlt).2 missedRun hlimit
        elapsed
    · exact reconcilesExactly_of_le (by omega) missedRun startDeadline hlimit elapsed

end Exact

/-- A host without a time zone database. -/
def noZones : ZoneTable := fun _ => none

/-- **An interval anchored at `i64::MIN` loses an occurrence without an error**, and an interval
above `i64::MAX` passes compilation but no range of it can be reconciled. -/
theorem reconcile_loses_occurrence :
    (Schedule.every 1000000 i64Min).compile noZones Zone.utc = .ok (.every 1000000 i64Min) ∧
    (CompiledSchedule.every 1000000 i64Min).reconcile noZones Zone.utc 0 1000000
      .all none 100 .missed
      = .ok ⟨[], []⟩ ∧
    (CompiledSchedule.every 1000000 i64Min).Occurs noZones Zone.utc 224192 ∧
    ¬ ReconcilesExactly (.every 1000000 i64Min) noZones Zone.utc 0 1000000 .all none 100 .missed ∧
    (Schedule.every 10000000000000000000 0).compile noZones Zone.utc
      = .ok (.every 10000000000000000000 0) ∧
    (CompiledSchedule.every 10000000000000000000 0).reconcile noZones Zone.utc 0 1000000
      .all none 100
      .missed = .error durationOverflow := by
  have hrun : (CompiledSchedule.every 1000000 i64Min).reconcile noZones Zone.utc 0 1000000 .all none
      100 .missed = .ok ⟨[], []⟩ := rfl
  have hoccurs : (CompiledSchedule.every 1000000 i64Min).Occurs noZones Zone.utc 224192 :=
    ⟨9223372036855, by unfold i64Min; norm_num⟩
  refine ⟨rfl, hrun, hoccurs, ?_, rfl, rfl⟩
  rintro ⟨r, occ, hr, hocc, hexact⟩
  rw [hrun] at hr
  cases hr
  have hcount : occ.length = 0 := hexact.accountedCount_eq.symm
  have hmem : (224192 : Int) ∈ occ := (hocc.mem_iff _).mpr ⟨by norm_num, by norm_num, hoccurs⟩
  rw [List.length_eq_zero_iff.mp hcount] at hmem
  cases hmem

/-- Every second from the epoch on, three seconds later: all of it is in reach. -/
theorem reconcile_exact_three_seconds :
    ReconcilesExactly (.every 1000000 0) noZones Zone.utc 0 3000000 .latest (some 2000000) 100
      .missed := by
  refine (reconcile_exact_iff (by exact ⟨by decide, by decide, by decide⟩) (by decide) (by decide)
    .latest (some 2000000) (by decide) .missed).mpr ?_
  intro _
  refine ⟨⟨by decide, ?_⟩, ?_⟩
  · intro k _ hk
    unfold i64Max
    omega
  · intro deadline _ t _ h1 _ _
    unfold i64Max
    omega

end Locron
