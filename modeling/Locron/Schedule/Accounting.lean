import Locron.Lib.Fallible
import Locron.Lib.Increasing
import Locron.Schedule.Reconcile

set_option autoImplicit false

/-! # Accounting for every occurrence

What reconciliation should return is stated here from the increasing list of the occurrences of the
range: the policy keeps a suffix of what the start deadline admits, and the omission summaries cover
the rest, piece by piece. `reconcile_of_enumerates` says that reconciliation returns this whenever
counting and selection agree with a list of occurrences.
-/

namespace Locron

/-! ## The specification -/

/-- How many of the missed occurrences a policy keeps at most. -/
def keepCount (limit : Nat) : MissedRunPolicy → Nat
  | .skip => 0
  | .latest => 1
  | .all => limit

/-- The selection: none, the newest or the newest `limit` of the missed occurrences; in a normal
range the newest occurrence is current work and not missed. -/
def expectedSelection (elapsed : ElapsedKind) (missedRun : MissedRunPolicy) (limit : Nat)
    (eligible : List Int) : List SelectedOccurrence :=
  match elapsed with
  | .missed => (eligible.rtake (keepCount limit missedRun)).map (fun t => ⟨t, true⟩)
  | .normal =>
    (eligible.dropLast.rtake (keepCount limit missedRun)).map (fun t => ⟨t, true⟩)
      ++ (eligible.rtake 1).map (fun t => ⟨t, false⟩)

/-- The occurrence is not older than the start deadline allows. -/
def WithinDeadline (now : Int) (startDeadline : Option Nat) (t : Int) : Prop :=
  ∀ deadline ∈ startDeadline, now - deadline ≤ t

instance (now : Int) (startDeadline : Option Nat) (t : Int) :
    Decidable (WithinDeadline now startDeadline t) :=
  inferInstanceAs (Decidable (∀ deadline ∈ startDeadline, _))

/-- A summary tells the number, the least and the greatest of the occurrences it covers; those over
the start deadline are covered by a summary of that kind and by no other. -/
structure Covers (eligible : List Int) (range : OmittedRange) (covered : List Int) : Prop where
  count_eq : range.count = covered.length
  first_least : IsLeast {t | t ∈ covered} range.first
  last_greatest : IsGreatest {t | t ∈ covered} range.last
  kind_iff : ∀ t ∈ covered, t ∈ eligible ↔ range.kind ≠ .startDeadline

/-- The result accounts exactly for the occurrences `occ`, of which `eligible` are within the start
deadline: the selection is the policy's, and `occ` falls into the pieces the summaries cover, in
order, followed by what is selected. -/
structure ExactAccounting (occ eligible : List Int) (elapsed : ElapsedKind)
    (missedRun : MissedRunPolicy) (limit : Nat) (r : ScheduleReconciliation) : Prop where
  selected_eq : r.selected = expectedSelection elapsed missedRun limit eligible
  partition : ∃ covers, List.Forall₂ (Covers eligible) r.omitted covers ∧
    occ = covers.flatten ++ r.selected.map (fun item => item.nominal)

/-- The number of occurrences a result accounts for. -/
def ScheduleReconciliation.accountedCount (r : ScheduleReconciliation) : Nat :=
  r.selected.length + (r.omitted.map (fun range => range.count)).sum

/-! ## The selection is a suffix -/

/-- Normal ranges keep one occurrence more: the current one. -/
def currentCount (elapsed : ElapsedKind) : Nat := if elapsed = .normal then 1 else 0

theorem nominal_expectedSelection (elapsed : ElapsedKind) (missedRun : MissedRunPolicy)
    (limit : Nat) (eligible : List Int) :
    (expectedSelection elapsed missedRun limit eligible).map (fun item => item.nominal)
      = eligible.rtake (keepCount limit missedRun + currentCount elapsed) := by
  cases elapsed with
  | missed => simp [expectedSelection, currentCount, Function.comp_def]
  | normal =>
    rcases List.eq_nil_or_concat eligible with rfl | ⟨init, x, rfl⟩
    · simp [expectedSelection]
    · simp [expectedSelection, currentCount, Function.comp_def, List.rtake_concat_succ]

variable {limit : Nat}

theorem selectOccurrences_eq (elapsed : ElapsedKind) (missedRun : MissedRunPolicy)
    (hlimit : 1 ≤ limit) (eligible : List Int) :
    selectOccurrences elapsed missedRun (eligible.rtake (limit + currentCount elapsed))
      = expectedSelection elapsed missedRun limit eligible := by
  have hretained : ∀ l : List Int,
      retained missedRun (l.rtake limit) = l.rtake (keepCount limit missedRun) := by
    intro l
    cases missedRun with
    | skip => simp [retained, keepCount]
    | latest =>
      show (l.rtake limit).rtake 1 = l.rtake 1
      rw [Increasing.rtake_rtake, min_eq_left hlimit]
    | all => rfl
  cases elapsed with
  | missed => simp [selectOccurrences, expectedSelection, currentCount, hretained]
  | normal =>
    rcases List.eq_nil_or_concat eligible with rfl | ⟨init, x, rfl⟩
    · simp [selectOccurrences, expectedSelection]
    · simp [selectOccurrences, expectedSelection, currentCount, List.rtake_concat_succ, hretained]

/-- Of `n` counted occurrences all but the selected ones are omitted. -/
theorem omittedCount_eq (elapsed : ElapsedKind) (missedRun : MissedRunPolicy) (limit : Nat)
    {eligible : List Int} {n : Nat} (hn : eligible.length ≤ n) (hzero : eligible = [] → n = 0) :
    n - (if elapsed = .normal ∧ 0 < n then 1 else 0)
        - ((expectedSelection elapsed missedRun limit eligible).filter
            (fun item => item.catchUp)).length
      = n - (eligible.rtake (keepCount limit missedRun + currentCount elapsed)).length := by
  have hmissed : ∀ l : List Int, ((l.map (fun t => (⟨t, true⟩ : SelectedOccurrence))).filter
      (fun item => item.catchUp)).length = l.length := by
    intro l
    rw [List.filter_map, List.length_map]
    simp [Function.comp_def]
  cases elapsed with
  | missed => simp [expectedSelection, hmissed, currentCount]
  | normal =>
    rcases List.eq_nil_or_concat eligible with rfl | ⟨init, x, rfl⟩
    · simp [hzero rfl]
    rw [List.concat_eq_append, List.length_append, List.length_singleton] at hn
    simp only [expectedSelection, List.filter_append, List.length_append, hmissed,
      Increasing.length_rtake, currentCount, List.concat_eq_append, List.dropLast_concat]
    simp only [true_and, if_true, if_pos (show 0 < n by omega)]
    simp
    omega

/-! ## Reconciliation over a list of occurrences -/

/-- Counting and selection inside `(lo, hi]` agree with the increasing list `occ`. -/
structure Enumerates (s : CompiledSchedule) (zones : ZoneTable) (localZone : Zone) (lo hi : Int)
    (occ : List Int) : Prop where
  sorted : occ.SortedLT
  bounds : ∀ t ∈ occ, lo < t ∧ t ≤ hi
  stats : ∀ x y, lo ≤ x → x < y → y ≤ hi →
    s.rangeStats zones localZone x y = .ok (OccurrenceStats.ofList (Increasing.window occ x y))
  newest : ∀ x y n, lo ≤ x → x < y → y ≤ hi → 0 < n →
    s.newestBetween zones localZone x y n = .ok ((Increasing.window occ x y).rtake n)

variable {eligible l : List Int} {kind : OmittedRangeKind}

/-- A summary of a non-empty increasing list. -/
theorem covers_of_list {first last : Int}
    (hsorted : l.SortedLT) (hfirst : l.head? = some first) (hlast : l.getLast? = some last)
    (hkind : ∀ t ∈ l, t ∈ eligible ↔ kind ≠ .startDeadline) :
    Covers eligible ⟨kind, l.length, first, last⟩ l where
  count_eq := rfl
  first_least := by
    refine ⟨List.mem_of_head? hfirst, ?_⟩
    intro t ht
    cases l with
    | nil => cases hfirst
    | cons x xs =>
      cases hfirst
      rw [List.sortedLT_iff_pairwise] at hsorted
      rcases List.mem_cons.mp ht with rfl | hmem
      · exact le_refl _
      · exact ((List.pairwise_cons.mp hsorted).1 t hmem).le
  last_greatest := by
    refine ⟨List.mem_of_getLast? hlast, ?_⟩
    intro t ht
    obtain ⟨init, rfl⟩ := List.getLast?_eq_some_iff.mp hlast
    rcases List.mem_append.mp ht with hmem | hmem
    · exact ((Increasing.sortedLT_append hsorted).2.2 t hmem last (by simp)).le
    · exact (List.mem_singleton.mp hmem).le
  kind_iff := hkind

def summaryOf (kind : OmittedRangeKind) (l : List Int) : List OmittedRange :=
  if 0 < l.length then [(OccurrenceStats.ofList l).intoRange kind] else []

theorem summaryOf_covers (hsorted : l.SortedLT)
    (hkind : ∀ t ∈ l, t ∈ eligible ↔ kind ≠ .startDeadline) :
    ∃ covers, List.Forall₂ (Covers eligible) (summaryOf kind l) covers ∧ covers.flatten = l := by
  unfold summaryOf
  cases hfirst : l.head? with
  | none =>
    rw [List.head?_eq_none_iff.mp hfirst]
    exact ⟨[], by simp, rfl⟩
  | some first =>
    have hne : l ≠ [] := by rintro rfl; cases hfirst
    have hlast : l.getLast? = some (l.getLast hne) := List.getLast?_eq_some_getLast hne
    rw [if_pos (List.length_pos_of_ne_nil hne)]
    refine ⟨[l], List.Forall₂.cons ?_ List.Forall₂.nil, by simp⟩
    have hrange : (OccurrenceStats.ofList l).intoRange kind
        = ⟨kind, l.length, first, l.getLast hne⟩ := by
      simp [OccurrenceStats.ofList, OccurrenceStats.intoRange, hfirst, hlast]
    rw [hrange]
    exact covers_of_list hsorted hfirst hlast hkind

/-- The kind of summary for what the policy does not select. -/
def omissionKind (missedRun : MissedRunPolicy) : OmittedRangeKind :=
  if missedRun = .all then .catchUpLimit else .missedRunPolicy

/-- What the policy does not select of the eligible occurrences. -/
def omittedFront (elapsed : ElapsedKind) (missedRun : MissedRunPolicy) (limit : Nat)
    (eligible : List Int) : List Int :=
  eligible.take (eligible.length - (keepCount limit missedRun + currentCount elapsed))

/-- The accounting for a list of expired and a list of eligible occurrences. -/
def account (expired eligible : List Int) (elapsed : ElapsedKind) (missedRun : MissedRunPolicy)
    (limit : Nat) : ScheduleReconciliation where
  selected := expectedSelection elapsed missedRun limit eligible
  omitted := summaryOf .startDeadline expired
    ++ summaryOf (omissionKind missedRun) (omittedFront elapsed missedRun limit eligible)

theorem omittedFront_append (elapsed : ElapsedKind) (missedRun : MissedRunPolicy) (limit : Nat)
    (eligible : List Int) :
    omittedFront elapsed missedRun limit eligible
      ++ (expectedSelection elapsed missedRun limit eligible).map (fun item => item.nominal)
      = eligible := by
  rw [nominal_expectedSelection]
  exact Increasing.take_append_rtake _ _

/-- **The accounting is exact.** -/
theorem account_exact {expired : List Int} (hsorted : (expired ++ eligible).SortedLT)
    (elapsed : ElapsedKind) (missedRun : MissedRunPolicy) (limit : Nat) :
    ExactAccounting (expired ++ eligible) eligible elapsed missedRun limit
      (account expired eligible elapsed missedRun limit) := by
  obtain ⟨hexp, helig, hlt⟩ := Increasing.sortedLT_append hsorted
  have hsplit := omittedFront_append elapsed missedRun limit eligible
  set front := omittedFront elapsed missedRun limit eligible
  have hfront : front.SortedLT := (Increasing.sortedLT_append (hsplit.symm ▸ helig)).1
  obtain ⟨covers₁, hcov₁, hflat₁⟩ : ∃ covers, List.Forall₂ (Covers eligible)
      (summaryOf .startDeadline expired) covers ∧ covers.flatten = expired := by
    apply summaryOf_covers hexp
    intro t ht
    simp only [ne_eq, not_true_eq_false, iff_false]
    intro hin
    exact lt_irrefl t (hlt t ht t hin)
  obtain ⟨covers₂, hcov₂, hflat₂⟩ : ∃ covers, List.Forall₂ (Covers eligible)
      (summaryOf (omissionKind missedRun) front) covers ∧ covers.flatten = front := by
    apply summaryOf_covers hfront
    intro t ht
    have hin : t ∈ eligible := hsplit ▸ List.mem_append_left _ ht
    unfold omissionKind
    split <;> simp [hin]
  refine ⟨rfl, covers₁ ++ covers₂, List.rel_append hcov₁ hcov₂, ?_⟩
  show expired ++ eligible = _
  rw [List.flatten_append, hflat₁, hflat₂, List.append_assoc]
  show expired ++ eligible = expired ++ (front
    ++ (expectedSelection elapsed missedRun limit eligible).map (fun item => item.nominal))
  rw [hsplit]

theorem ExactAccounting.accountedCount_eq {occ : List Int} {elapsed : ElapsedKind}
    {missedRun : MissedRunPolicy} {r : ScheduleReconciliation}
    (h : ExactAccounting occ eligible elapsed missedRun limit r) :
    r.accountedCount = occ.length := by
  obtain ⟨-, covers, hcovers, rfl⟩ := h
  have hsum : ∀ {ranges : List OmittedRange} {covers : List (List Int)},
      List.Forall₂ (Covers eligible) ranges covers →
        (ranges.map (fun range => range.count)).sum = covers.flatten.length := by
    intro ranges covers hall
    induction hall with
    | nil => rfl
    | cons hhead _ ih =>
      rw [List.map_cons, List.sum_cons, ih, hhead.count_eq, List.flatten_cons,
        List.length_append]
  unfold ScheduleReconciliation.accountedCount
  rw [hsum hcovers, List.length_append, List.length_map, Nat.add_comm]

/-- Whatever an exact accounting does not select stands in one of its summaries. -/
theorem exists_covers_of_mem {ranges : List OmittedRange}
    {covers : List (List Int)} (hall : List.Forall₂ (Covers eligible) ranges covers) {t : Int}
    (ht : t ∈ covers.flatten) :
    ∃ range ∈ ranges, ∃ covered, Covers eligible range covered ∧ t ∈ covered := by
  induction hall with
  | nil => cases ht
  | @cons range covered _ _ hhead _ ih =>
    rcases List.mem_append.mp (List.flatten_cons ▸ ht) with hmem | hmem
    · exact ⟨range, List.mem_cons_self, covered, hhead, hmem⟩
    · obtain ⟨range', hrange', rest⟩ := ih hmem
      exact ⟨range', List.mem_cons_of_mem _ hrange', rest⟩

theorem mem_summaryOf {range : OmittedRange}
    (h : range ∈ summaryOf kind l) : range.kind = kind ∧ range.first ∈ l := by
  unfold summaryOf at h
  split at h
  · next hpos =>
    rw [List.mem_singleton] at h
    subst h
    have hne : l ≠ [] := List.ne_nil_of_length_pos hpos
    refine ⟨rfl, ?_⟩
    show l.head?.getD 0 ∈ l
    rw [List.head?_eq_some_head hne]
    exact List.head_mem hne
  · cases h

theorem deadlineAfter_bounds {after now : Int} (hafter : InI64 after) (hnow : InI64 now)
    (hlt : after < now) (startDeadline : Option Nat) :
    after ≤ deadlineAfter after now startDeadline ∧
      deadlineAfter after now startDeadline < now := by
  obtain ⟨h1, h2⟩ := hafter
  obtain ⟨h3, h4⟩ := hnow
  cases startDeadline with
  | none => exact ⟨le_refl _, hlt⟩
  | some deadline =>
    have hclamp : 0 ≤ (i64OfNat deadline).getD i64Max := by
      unfold i64OfNat i64Max
      split <;> simp
    unfold deadlineAfter saturate
    simp only
    omega

/-- A successful reconciliation has counted both sides of the deadline, selected from the newest
occurrences and summed up the rest. -/
theorem CompiledSchedule.reconcile_ok {s : CompiledSchedule} {zones : ZoneTable} {localZone : Zone}
    {after now : Int} {missedRun : MissedRunPolicy} {startDeadline : Option Nat}
    {elapsed : ElapsedKind} {r : ScheduleReconciliation} (hlt : after < now)
    (h : s.reconcile zones localZone after now missedRun startDeadline limit elapsed = .ok r) :
    ∃ expired eligible newest omitted,
      s.expiredStats zones localZone after (deadlineAfter after now startDeadline) = .ok expired ∧
      s.rangeStats zones localZone (deadlineAfter after now startDeadline) now = .ok eligible ∧
      s.newestBetween zones localZone (deadlineAfter after now startDeadline) now
        (limit + currentCount elapsed) = .ok newest ∧
      s.omittedStats zones localZone (deadlineAfter after now startDeadline) missedRun elapsed
        eligible (selectOccurrences elapsed missedRun newest) = .ok omitted ∧
      r = ⟨selectOccurrences elapsed missedRun newest,
        (if 0 < expired.count then [expired.intoRange .startDeadline] else []) ++ omitted⟩ := by
  unfold reconcile at h
  obtain ⟨-, h⟩ := Except.guard_eq_ok.mp h
  rw [if_neg (by omega)] at h
  obtain ⟨expired, hexpired, h⟩ := Except.bind_eq_ok.mp h
  obtain ⟨eligible, heligible, h⟩ := Except.bind_eq_ok.mp h
  obtain ⟨newest, hnewest, h⟩ := Except.bind_eq_ok.mp h
  obtain ⟨omitted, homitted, h⟩ := Except.bind_eq_ok.mp h
  cases h
  exact ⟨expired, eligible, newest, omitted, hexpired, heligible, hnewest, homitted, rfl⟩

section Reconcile

variable {s : CompiledSchedule} {zones : ZoneTable} {localZone : Zone} {after now : Int}
  {occ : List Int} (henum : Enumerates s zones localZone after now occ)

include henum

variable {deadline : Int}

theorem lastOmitted_eq (hafter : InI64 after) (hnow : InI64 now) (hlo : after ≤ deadline)
    {front : List Int} {selected : List SelectedOccurrence}
    (hsplit : Increasing.window occ deadline now
      = front ++ selected.map (fun item => item.nominal)) {last : Int}
    (hlast : front.getLast? = some last) :
    s.lastOmitted zones localZone deadline
      (OccurrenceStats.ofList (Increasing.window occ deadline now)) selected = .ok last := by
  have hwin := Increasing.sortedLT_window henum.sorted deadline now
  unfold CompiledSchedule.lastOmitted
  cases selected with
  | nil =>
    simp only [List.map_nil, List.append_nil] at hsplit
    simp [hsplit, OccurrenceStats.ofList, hlast]
  | cons first rest =>
    simp only [List.map_cons] at hsplit
    have hmem : first.nominal ∈ Increasing.window occ deadline now := by
      rw [hsplit]
      simp
    have hfirst := (Increasing.mem_window.mp hmem).2
    have hlastmem : last ∈ Increasing.window occ deadline now := by
      rw [hsplit]
      exact List.mem_append_left _ (List.mem_of_getLast? hlast)
    have hgt := (Increasing.mem_window.mp hlastmem).2
    rw [hsplit] at hwin
    have hbefore := (Increasing.sortedLT_append hwin).2.2 last (List.mem_of_getLast? hlast)
      first.nominal (by simp)
    have hsat : saturate (first.nominal - 1) = first.nominal - 1 := by
      apply saturate_eq_self
      rcases hafter with ⟨h1, -⟩
      rcases hnow with ⟨-, h2⟩
      exact ⟨by omega, by omega⟩
    have hfront : Increasing.window occ deadline (first.nominal - 1) = front := by
      rw [← Increasing.window_window (le_refl _) (by omega : first.nominal - 1 ≤ now), hsplit]
      apply Increasing.window_before hwin
      intro t ht
      have hmem : t ∈ Increasing.window occ deadline now := by
        rw [hsplit]
        exact List.mem_append_left _ ht
      exact (Increasing.mem_window.mp hmem).2.1
    simp only [List.head?_cons, hsat]
    rw [henum.newest deadline (first.nominal - 1) 1 hlo (by omega) (by omega) (by omega), hfront]
    simp only [Increasing.head?_rtake_one, hlast]

theorem expiredStats_eq (hhi : deadline < now) :
    s.expiredStats zones localZone after deadline
      = .ok (OccurrenceStats.ofList (Increasing.window occ after deadline)) := by
  unfold CompiledSchedule.expiredStats
  by_cases h : after < deadline
  · rw [if_pos h, henum.stats after deadline (le_refl _) h hhi.le]
  · rw [if_neg h, Increasing.window_of_le (by omega)]
    rfl

theorem omittedStats_eq (hafter : InI64 after) (hnow : InI64 now)
    (hlo : after ≤ deadline) (elapsed : ElapsedKind) (missedRun : MissedRunPolicy) (limit : Nat) :
    let eligible := Increasing.window occ deadline now
    s.omittedStats zones localZone deadline missedRun elapsed (OccurrenceStats.ofList eligible)
        (expectedSelection elapsed missedRun limit eligible)
      = .ok (summaryOf (omissionKind missedRun)
          (omittedFront elapsed missedRun limit eligible)) := by
  intro eligible
  have hsplit := omittedFront_append elapsed missedRun limit eligible
  have hlen : (omittedFront elapsed missedRun limit eligible).length
      = eligible.length - (keepCount limit missedRun + currentCount elapsed) := by
    unfold omittedFront
    rw [List.length_take]
    omega
  have hcount : (OccurrenceStats.ofList eligible).count
        - (if elapsed = .normal ∧ 0 < (OccurrenceStats.ofList eligible).count then 1 else 0)
        - ((expectedSelection elapsed missedRun limit eligible).filter
            (fun item => item.catchUp)).length
      = (omittedFront elapsed missedRun limit eligible).length :=
    (omittedCount_eq elapsed missedRun limit le_rfl (fun h => by rw [h]; rfl)).trans
      (by rw [hlen, Increasing.length_rtake]; show eligible.length - _ = _; omega)
  unfold CompiledSchedule.omittedStats summaryOf
  simp only
  rw [hcount]
  set front := omittedFront elapsed missedRun limit eligible with hfront
  by_cases hzero : front.length = 0
  · rw [if_pos hzero, if_neg (show ¬ 0 < front.length by omega)]
  rw [if_neg hzero, if_pos (show 0 < front.length by omega)]
  have hne : front ≠ [] := fun h => hzero (by rw [h]; rfl)
  have hhead : eligible.head? = some (front.head hne) := by
    rw [← hsplit, List.head?_append, List.head?_eq_some_head hne]
    rfl
  have hlast : s.lastOmitted zones localZone deadline (OccurrenceStats.ofList eligible)
      (expectedSelection elapsed missedRun limit eligible) = .ok (front.getLast hne) :=
    lastOmitted_eq henum hafter hnow hlo hsplit.symm (List.getLast?_eq_some_getLast hne)
  have hfirst : (OccurrenceStats.ofList eligible).first = some (front.head hne) := hhead
  simp only [hfirst, hlast]
  simp only [OccurrenceStats.intoRange, OccurrenceStats.ofList, List.head?_eq_some_head hne,
    List.getLast?_eq_some_getLast hne, Option.getD_some, omissionKind]

/-- **Reconciliation accounts for the list that counting and selection agree with.** -/
theorem reconcile_of_enumerates (hafter : InI64 after) (hnow : InI64 now) (hlt : after < now)
    (elapsed : ElapsedKind) (missedRun : MissedRunPolicy) (startDeadline : Option Nat)
    (hlimit : 1 ≤ limit ∧ limit ≤ 1000) :
    s.reconcile zones localZone after now missedRun startDeadline limit elapsed
      = .ok (account (Increasing.window occ after (deadlineAfter after now startDeadline))
          (Increasing.window occ (deadlineAfter after now startDeadline) now)
          elapsed missedRun limit) := by
  obtain ⟨hlo, hhi⟩ := deadlineAfter_bounds hafter hnow hlt startDeadline
  have hnewest := henum.newest _ now (limit + currentCount elapsed) hlo hhi (le_refl _) (by omega)
  have hcur : (if elapsed = .normal then 1 else 0) = currentCount elapsed := rfl
  unfold CompiledSchedule.reconcile
  rw [if_neg (not_not.mpr hlimit), if_neg (by omega)]
  simp only [expiredStats_eq henum hhi, henum.stats _ now hlo hhi (le_refl _), hcur, hnewest,
    selectOccurrences_eq elapsed missedRun hlimit.1, omittedStats_eq henum hafter hnow hlo,
    bind, Except.bind]
  rfl

end Reconcile

end Locron
