import Locron.Schedule.Exactness

set_option autoImplicit false

/-! # Splitting a range

Inside a window, reconciling `(a, b]` and then `(b, c]` always accounts for what reconciling `(a,
c]` accounts for exactly if counting is additive there (`CountsInOrder`). Where the local date steps
back at `b`, an occurrence right before `b` can be lost by the split.
-/

namespace Locron

/-- The result accounts for the increasing list `l` of occurrences in `(after, now]`. -/
structure Accounts (s : CompiledSchedule) (zones : ZoneTable) (localZone : Zone) (after now : Int)
    (missedRun : MissedRunPolicy) (startDeadline : Option Nat) (limit : Nat) (elapsed : ElapsedKind)
    (r : ScheduleReconciliation) (l : List Int) : Prop where
  sorted : l.SortedLT
  occurs : ∀ t ∈ l, after < t ∧ t ≤ now ∧ s.Occurs zones localZone t
  exact : ExactAccounting l (Increasing.window l (deadlineAfter after now startDeadline) now)
    elapsed missedRun limit r

/-- Reconciling the parts and the whole succeeds, the parts account for consecutive pieces of what
the whole accounts for, and the counts add up. The three calls may differ in the kind of the elapsed
range. -/
def SplitsAt (s : CompiledSchedule) (zones : ZoneTable) (localZone : Zone) (a b c : Int)
    (missedRun : MissedRunPolicy) (startDeadline : Option Nat) (limit : Nat)
    (first second whole : ElapsedKind) : Prop :=
  let run := fun after now elapsed =>
    s.reconcile zones localZone after now missedRun startDeadline limit elapsed
  let accounts := fun after now elapsed =>
    Accounts s zones localZone after now missedRun startDeadline limit elapsed
  ∃ r₁ r₂ r, run a b first = .ok r₁ ∧ run b c second = .ok r₂ ∧ run a c whole = .ok r ∧
    r.accountedCount = r₁.accountedCount + r₂.accountedCount ∧
    ∃ l₁ l₂, accounts a b first r₁ l₁ ∧ accounts b c second r₂ l₂ ∧
      accounts a c whole r (l₁ ++ l₂)

/-- Every range inside the window can be split anywhere, under every policy. -/
def SplitsWithin (s : CompiledSchedule) (zones : ZoneTable) (localZone : Zone) (lo hi : Int) :
    Prop :=
  ∀ a b c, lo ≤ a → a ≤ b → b ≤ c → c ≤ hi →
    ∀ missedRun startDeadline limit first second whole, 1 ≤ limit ∧ limit ≤ 1000 →
      SplitsAt s zones localZone a b c missedRun startDeadline limit first second whole

/-- The condition on the window: an interval fits an `i64`, and cron times are counted in order. -/
def Splittable (zones : ZoneTable) (localZone : Zone) (lo hi : Int) : CompiledSchedule → Prop
  | .at _ => True
  | .every interval _ => lo < hi → (interval : Int) ≤ i64Max
  | .cron e timezone => ∀ zone, timezone.resolveWith zones localZone = .ok zone →
      e.CountsInOrder zone lo hi

variable {s : CompiledSchedule} {zones : ZoneTable} {localZone : Zone}

/-- Counting and selection on a part of the range. -/
theorem Enumerates.part
    {lo hi : Int} {occ : List Int} (h : Enumerates s zones localZone lo hi occ) {x y : Int}
    (hlo : lo ≤ x) (hhi : y ≤ hi) :
    Enumerates s zones localZone x y (Increasing.window occ x y) where
  sorted := Increasing.sortedLT_window h.sorted x y
  bounds := fun _ ht => (Increasing.mem_window.mp ht).2
  stats := by
    intro u v hu huv hv
    rw [Increasing.window_window hu hv]
    exact h.stats u v (by omega) huv (by omega)
  newest := by
    intro u v n hu huv hv hn
    rw [Increasing.window_window hu hv]
    exact h.newest u v n (by omega) huv (by omega) hn

/-! ## Where ranges can be split -/

section Split

variable {lo hi : Int} {missedRun : MissedRunPolicy} {startDeadline : Option Nat} {limit : Nat}

/-- A reconciled range accounts for the list that counting and selection agree with. -/
theorem accounts_of_enumerates {x y : Int} {occ : List Int}
    (henum : Enumerates s zones localZone x y occ) (hoccurs : ∀ t ∈ occ, s.Occurs zones localZone t)
    (hx : InI64 x) (hy : InI64 y) (hxy : x ≤ y) (hlimit : 1 ≤ limit ∧ limit ≤ 1000)
    (elapsed : ElapsedKind) :
    ∃ r, s.reconcile zones localZone x y missedRun startDeadline limit elapsed = .ok r ∧
      Accounts s zones localZone x y missedRun startDeadline limit elapsed r occ := by
  have hocc : ∀ t ∈ occ, x < t ∧ t ≤ y ∧ s.Occurs zones localZone t :=
    fun t ht => ⟨(henum.bounds t ht).1, (henum.bounds t ht).2, hoccurs t ht⟩
  rcases hxy.eq_or_lt with rfl | hlt
  · obtain rfl : occ = [] := List.eq_nil_iff_forall_not_mem.mpr fun t ht => by
      have := henum.bounds t ht
      omega
    refine ⟨⟨[], []⟩, ?_, henum.sorted, hocc, ?_, [], List.Forall₂.nil, rfl⟩
    · unfold CompiledSchedule.reconcile
      rw [if_neg (not_not.mpr hlimit), if_pos (le_refl _)]
    · cases elapsed <;> simp [expectedSelection, Increasing.window]
  · obtain ⟨hlo, hhi⟩ := deadlineAfter_bounds hx hy hlt startDeadline
    have hsplit := Increasing.window_append henum.sorted hlo hhi.le
    rw [Increasing.window_eq_self henum.bounds] at hsplit
    refine ⟨_, reconcile_of_enumerates henum hx hy hlt elapsed missedRun startDeadline hlimit,
      henum.sorted, hocc, ?_⟩
    have hexact := account_exact (hsplit ▸ henum.sorted) elapsed missedRun limit
    rwa [← hsplit] at hexact

/-- In a window that meets the condition, counting and selection agree with a list of
occurrences. -/
theorem Splittable.exists_enumerates (hs : s.Valid zones localZone) (hlo : InI64 lo)
    (hhi : InI64 hi) (h : Splittable zones localZone lo hi s) (hlt : lo < hi) :
    ∃ occ, Enumerates s zones localZone lo hi occ ∧ ∀ t ∈ occ, s.Occurs zones localZone t := by
  cases s with
  | «at» at_ =>
    exact ⟨_, enumerates_at zones localZone at_ lo hi, fun t ht => ((mem_atList at_).mp ht).1⟩
  | every interval anchor =>
    obtain ⟨h1, h2, hanchor⟩ := hs
    have hv : ValidInterval interval := ⟨h hlt, h1, h2⟩
    refine ⟨_, enumerates_every zones localZone hv hanchor hlo hhi, fun t ht => ?_⟩
    obtain ⟨-, -, k, hk, -⟩ := (mem_intervalList hv).mp ht
    exact ⟨k, hk⟩
  | cron e timezone =>
    obtain ⟨zone, hzone⟩ := hs
    exact ⟨_, enumerates_cron hzone (h zone hzone),
      fun t ht => ⟨zone, hzone, ((e.mem_seen zone).mp ht).1⟩⟩

theorem Splittable.splitsWithin (hs : s.Valid zones localZone) (hlo : InI64 lo) (hhi : InI64 hi)
    (h : Splittable zones localZone lo hi s) : SplitsWithin s zones localZone lo hi := by
  intro a b c ha hab hbc hc missedRun startDeadline limit first second whole hlimit
  have h64 : ∀ x, lo ≤ x → x ≤ hi → InI64 x := fun x h1 h2 => ⟨hlo.1.trans h1, h2.trans hhi.2⟩
  obtain ⟨occ, henum, hoccurs⟩ : ∃ occ, Enumerates s zones localZone a c occ ∧
      ∀ t ∈ occ, s.Occurs zones localZone t := by
    rcases (hab.trans hbc).eq_or_lt with rfl | hac
    · refine ⟨[], ⟨List.sortedLT_iff_pairwise.mpr List.Pairwise.nil, by simp, ?_, ?_⟩, by simp⟩
      · intro x y h1 h2 h3
        omega
      · intro x y n h1 h2 h3
        omega
    · obtain ⟨occ, henum, hoccurs⟩ := h.exists_enumerates hs hlo hhi (by omega)
      exact ⟨_, henum.part ha hc, fun t ht => hoccurs t (Increasing.mem_window.mp ht).1⟩
  have hpart : ∀ x y, ∀ t ∈ Increasing.window occ x y, s.Occurs zones localZone t :=
    fun x y t ht => hoccurs t (Increasing.mem_window.mp ht).1
  obtain ⟨r₁, hr₁, hacc₁⟩ := accounts_of_enumerates (henum.part (le_refl a) hbc) (hpart a b)
    (h64 a ha (by omega)) (h64 b (by omega) (by omega)) hab hlimit first
  obtain ⟨r₂, hr₂, hacc₂⟩ := accounts_of_enumerates (henum.part hab (le_refl c)) (hpart b c)
    (h64 b (by omega) (by omega)) (h64 c (by omega) hc) hbc hlimit second
  obtain ⟨r, hr, hacc⟩ := accounts_of_enumerates henum hoccurs (h64 a ha (by omega))
    (h64 c (by omega) hc) (hab.trans hbc) hlimit whole
  rw [← Increasing.window_eq_self henum.bounds,
    Increasing.window_append henum.sorted hab hbc] at hacc
  refine ⟨r₁, r₂, r, hr₁, hr₂, hr, ?_, _, _, hacc₁, hacc₂, hacc⟩
  rw [hacc.exact.accountedCount_eq, hacc₁.exact.accountedCount_eq,
    hacc₂.exact.accountedCount_eq, List.length_append]

end Split

/-! ## Why the condition is needed -/

/-- The list `l` agrees with the count and with the ends of what is seen. -/
structure Tells (e : CronExpression) (zone : Zone) (x y : Int) (l : List Int) : Prop where
  length : l.length = e.counted zone x y
  sorted : l.SortedLT
  bounds : ∀ t ∈ l, x < t ∧ t ≤ y
  ends : e.seen zone x y = [] ∧ l = [] ∨ ∃ first last, (e.seen zone x y).head? = some first ∧
    (e.seen zone x y).getLast? = some last ∧ IsLeast {t | t ∈ l} first ∧ IsGreatest {t | t ∈ l} last

section Needed

variable {e : CronExpression} {zone : Zone} {timezone : ScheduleTimeZone} {lo hi : Int}
  (hzone : timezone.resolveWith zones localZone = .ok zone)

include hzone

/-- With nothing selected, the one summary tells the count and the ends. -/
theorem tells_of_accounts {x y : Int} (hxy : x < y) (hx : Supported x) (hy : Supported y)
    (hsup : e.DatesSupported zone x y) {r : ScheduleReconciliation} {l : List Int}
    (hr : (CompiledSchedule.cron e timezone).reconcile zones localZone x y .skip none 1 .missed
      = .ok r) (hacc : Accounts (.cron e timezone) zones localZone x y .skip none 1 .missed r l) :
    Tells e zone x y l := by
  obtain ⟨expired, eligible, newest, omitted, hexpired, heligible, -, homitted, rfl⟩ :=
    CompiledSchedule.reconcile_ok hxy hr
  rw [show deadlineAfter x y none = x from rfl] at hexpired heligible homitted
  unfold CompiledSchedule.expiredStats at hexpired
  rw [if_neg (lt_irrefl x)] at hexpired
  cases hexpired
  rw [rangeStats_cron hzone hxy] at heligible
  obtain ⟨hfound, rfl⟩ := (e.rangeStats_ok_iff hx hy hxy.le hsup).mp heligible
  obtain ⟨-, covers, hcovers, hl⟩ := hacc.exact
  have hbounds : ∀ t ∈ l, x < t ∧ t ≤ y :=
    fun t ht => ⟨(hacc.occurs t ht).1, (hacc.occurs t ht).2.1⟩
  -- nothing is selected, so what is told is the one summary of the range, if there is one
  by_cases hnil : e.seen zone x y = []
  · have hzero : e.counted zone x y = 0 := by
      rw [(e.counted_eq_iff hxy.le).mpr fun h => hfound h hnil, hnil, List.length_nil]
    rw [hzero] at homitted
    cases homitted
    cases hcovers
    exact ⟨by rw [hl, hzero]; rfl, hacc.sorted, hbounds, Or.inl ⟨hnil, hl⟩⟩
  have hzero : e.counted zone x y ≠ 0 :=
    ((List.length_pos_of_ne_nil hnil).trans_le (e.length_seen_le hxy.le)).ne'
  have hfirst := List.head?_eq_some_head hnil
  have hlast := List.getLast?_eq_some_getLast hnil
  have hone : omitted = [⟨.missedRunPolicy, e.counted zone x y, (e.seen zone x y).head hnil,
      (e.seen zone x y).getLast hnil⟩] := by
    simpa [CompiledSchedule.omittedStats, CompiledSchedule.lastOmitted, selectOccurrences, retained,
      hfirst, hlast, hzero] using homitted.symm
  subst hone
  cases hcovers with
  | @cons _ covered _ _ hcov hrest =>
    cases hrest
    obtain rfl : l = covered := by simpa [selectOccurrences, retained] using hl
    exact ⟨hcov.count_eq.symm, hacc.sorted, hbounds,
      Or.inr ⟨_, _, hfirst, hlast, hcov.first_least, hcov.last_greatest⟩⟩

theorem SplitsWithin.windowSupported (h : SplitsWithin (.cron e timezone) zones localZone lo hi) :
    e.WindowSupported zone lo hi := by
  apply e.windowSupported_of_rangeStats
  intro x y hx hxy hy
  obtain ⟨-, -, r, -, -, hr, -⟩ :=
    h x x y hx le_rfl hxy.le hy .skip none 1 .missed .missed .missed (by decide)
  obtain ⟨-, stats, -, -, -, hstats, -⟩ := CompiledSchedule.reconcile_ok hxy hr
  rw [show deadlineAfter x y none = x from rfl, rangeStats_cron hzone hxy] at hstats
  exact ⟨stats, hstats⟩

/-- What the law says of the count of a range. -/
theorem SplitsWithin.exists_tells (h : SplitsWithin (.cron e timezone) zones localZone lo hi)
    {x y : Int} (hx : lo ≤ x) (hxy : x < y) (hy : y ≤ hi) : ∃ l, Tells e zone x y l := by
  obtain ⟨r₁, r₂, r, -, -, hr, -, l₁, l₂, -, -, hacc⟩ :=
    h x x y hx le_rfl hxy.le hy .skip none 1 .missed .missed .missed (by decide)
  obtain ⟨hx', hy', hdates⟩ := h.windowSupported hzone x y hx hxy hy
  exact ⟨_, tells_of_accounts hzone hxy hx' hy' hdates hr hacc⟩

/-- One list serves the parts and the whole. -/
theorem SplitsWithin.tells (h : SplitsWithin (.cron e timezone) zones localZone lo hi)
    {a b c : Int} (ha : lo ≤ a) (hab : a < b) (hbc : b < c) (hc : c ≤ hi) :
    ∃ l₁ l₂, Tells e zone a b l₁ ∧ Tells e zone b c l₂ ∧ Tells e zone a c (l₁ ++ l₂) := by
  obtain ⟨r₁, r₂, r, hr₁, hr₂, hr, -, l₁, l₂, hacc₁, hacc₂, hacc⟩ :=
    h a b c ha hab.le hbc.le hc .skip none 1 .missed .missed .missed (by decide)
  have hsup := h.windowSupported hzone
  obtain ⟨ha', hb', hdates₁⟩ := hsup a b ha hab (by omega)
  obtain ⟨-, hc', hdates₂⟩ := hsup b c (by omega) hbc hc
  obtain ⟨-, -, hdates⟩ := hsup a c ha (by omega) hc
  exact ⟨l₁, l₂, tells_of_accounts hzone hab ha' hb' hdates₁ hr₁ hacc₁,
    tells_of_accounts hzone hbc hb' hc' hdates₂ hr₂ hacc₂,
    tells_of_accounts hzone (by omega) ha' hc' hdates hr hacc⟩

theorem SplitsWithin.counted_add (h : SplitsWithin (.cron e timezone) zones localZone lo hi)
    {a b c : Int} (ha : lo ≤ a) (hab : a < b) (hbc : b < c) (hc : c ≤ hi) :
    e.counted zone a c = e.counted zone a b + e.counted zone b c := by
  obtain ⟨l₁, l₂, h₁, h₂, h₃⟩ := h.tells hzone ha hab hbc hc
  rw [← h₁.length, ← h₂.length, ← h₃.length, List.length_append]

omit hzone in
theorem counted_of_lt {x y : Int} (h : zone.localDay y < zone.localDay x) :
    e.counted zone x y = 0 := by
  unfold CronExpression.counted
  rw [Finset.Ico_eq_empty_of_le (by omega), Finset.sum_empty]

omit hzone in
/-- An occurrence at the end of the range is the last that is seen. -/
theorem getLast?_seen {x t : Int} (ht : t ∈ e.seen zone x t) :
    (e.seen zone x t).getLast? = some t := by
  obtain ⟨hocc, hrange, hdate, -⟩ := (e.mem_seen zone).mp ht
  have hmem : t ∈ e.block zone x t (zone.localDay t) :=
    (e.mem_block zone).mpr ⟨(e.occurs_iff zone).mp hocc, hrange⟩
  unfold CronExpression.seen
  rw [Blocks.enum_succ hdate, List.getLast?_append, Increasing.getLast?_eq_some
    (e.sortedLT_block zone _) hmem (fun u hu => ((e.mem_block zone).mp hu).2.2), Option.some_or]

omit hzone in
/-- An occurrence is counted at its own instant, if the date does not step back there. -/
theorem counted_own {t : Int} (hocc : e.Occurs zone t)
    (hdate : zone.localDay (t - 1) ≤ zone.localDay t) : 0 < e.counted zone (t - 1) t := by
  have hmem : t ∈ e.seen zone (t - 1) t :=
    (e.mem_seen zone).mpr ⟨hocc, ⟨by omega, le_rfl⟩, hdate, le_rfl⟩
  exact lt_of_lt_of_le (List.length_pos_of_mem hmem) (e.length_seen_le (by omega))

/-- An occurrence that some range sees is seen by all ranges that hold it. -/
theorem SplitsWithin.inOrder (h : SplitsWithin (.cron e timezone) zones localZone lo hi) :
    e.InOrder zone lo hi := by
  rintro t hocc hlo hhi ⟨a, ha, hat, hdate⟩
  have hback : zone.localDay (t - 1) ≤ zone.localDay t := by
    by_contra hcon
    have hne : a ≠ t - 1 := by
      rintro rfl
      exact hcon hdate
    -- nothing is counted in the last step, but `t` is the last that is seen
    obtain ⟨l₁, l₂, h₁, h₂, h₃⟩ := h.tells hzone ha (by omega : a < t - 1) (by omega) hhi
    have hnil : l₂ = [] := List.length_eq_zero_iff.mp
      (h₂.length.trans (counted_of_lt (not_le.mp hcon)))
    have hmem : t ∈ e.seen zone a t := (e.mem_seen zone).mpr ⟨hocc, ⟨hat, le_rfl⟩, hdate, le_rfl⟩
    rcases h₃.ends with ⟨hempty, -⟩ | ⟨first, last, -, hlast, -, hgreatest⟩
    · rw [hempty] at hmem
      cases hmem
    rw [getLast?_seen hmem, Option.some.injEq] at hlast
    have hin : t ∈ l₁ := by
      have := hgreatest.1
      rw [hnil, List.append_nil, ← hlast] at this
      exact this
    have := h₁.bounds t hin
    omega
  intro x hx hx'
  constructor
  · intro hlt
    by_contra hcon
    have hne : x ≠ t - 1 := by
      rintro rfl
      exact hcon hback
    have hzero := counted_of_lt (e := e) (not_le.mp hcon)
    have := h.counted_add hzone hx (by omega : x < t - 1) (by omega) hhi
    have := counted_own hocc hback
    omega
  · intro hle
    rcases hle.eq_or_lt with rfl | hlt
    · exact le_rfl
    -- the occurrence is the first of the range from right before it
    obtain ⟨l₁, l₂, h₁, h₂, h₃⟩ := h.tells hzone (by omega : lo ≤ t - 1) (by omega) hlt hx'
    have hin : t ∈ l₁ := by
      obtain ⟨u, hu⟩ := List.exists_mem_of_length_pos (h₁.length ▸ counted_own hocc hback)
      have := h₁.bounds u hu
      rwa [show t = u by omega]
    rcases h₃.ends with ⟨-, hnil⟩ | ⟨first, last, hfirst, -, hleast, -⟩
    · rw [(List.append_eq_nil_iff.mp hnil).1] at hin
      cases hin
    have hle := hleast.2 (List.mem_append_left l₂ hin)
    have hge := h₃.bounds first hleast.1
    have hmem := List.mem_of_head? hfirst
    rw [show first = t by omega] at hmem
    exact ((e.mem_seen zone).mp hmem).2.2.2

/-- In a single step at most one time is counted, and it is seen. -/
theorem SplitsWithin.counted_step (h : SplitsWithin (.cron e timezone) zones localZone lo hi)
    {z : Int} (hz : lo ≤ z) (hz' : z < hi) :
    e.counted zone z (z + 1) ≤ (e.seen zone z (z + 1)).length := by
  obtain ⟨l, hl⟩ := h.exists_tells hzone hz (by omega : z < z + 1) (by omega)
  have hle : l.length ≤ [z + 1].length := by
    refine (List.subperm_of_subset hl.sorted.nodup fun t ht => ?_).length_le
    have := hl.bounds t ht
    exact List.mem_singleton.mpr (by omega)
  rw [← hl.length]
  rcases hl.ends with ⟨-, rfl⟩ | ⟨first, last, hfirst, -⟩
  · exact Nat.zero_le _
  · exact hle.trans (List.length_pos_of_mem (List.mem_of_head? hfirst))

/-- **What the law needs of cron times.** By induction on the end of a range, all that is counted is
seen. -/
theorem SplitsWithin.countsInOrder (h : SplitsWithin (.cron e timezone) zones localZone lo hi) :
    e.CountsInOrder zone lo hi := by
  have horder := h.inOrder hzone
  refine ⟨h.windowSupported hzone, horder, fun x y hx hxy hy => ?_⟩
  suffices hcount : e.counted zone x y ≤ (e.seen zone x y).length from
    (e.counted_eq_iff hxy.le).mp (le_antisymm hcount (e.length_seen_le hxy.le))
  have hstart : x + 1 ≤ y := hxy
  clear hxy
  induction y, hstart using Int.leInduction with
  | base => exact h.counted_step hzone hx (by omega)
  | succ y hstart ih =>
    have hseen : (e.seen zone x (y + 1)).length
        = (e.seen zone x y).length + (e.seen zone y (y + 1)).length := by
      rw [horder.seen_eq_window hx (by omega) hy, horder.seen_eq_window hx (by omega) (by omega),
        horder.seen_eq_window (by omega) (by omega : y ≤ y + 1) hy, ← List.length_append,
        ← Increasing.window_append (horder.sortedLT_seen le_rfl le_rfl) (by omega) (by omega)]
    have := ih (by omega)
    have := h.counted_step hzone (by omega : lo ≤ y) (by omega)
    have := h.counted_add hzone hx (by omega : x < y) (by omega) hy
    omega

end Needed

/-- **Inside a window every range can be split at any instant exactly if counting is additive
there**: for cron, every occurrence that some range of the window sees is in order with all instants
of the window, and no time is counted again on a date that is shown twice. -/
theorem reconcile_splits_iff {lo hi : Int} (hs : s.Valid zones localZone) (hlo : InI64 lo)
    (hhi : InI64 hi) :
    SplitsWithin s zones localZone lo hi ↔ Splittable zones localZone lo hi s := by
  refine ⟨fun h => ?_, fun h => h.splitsWithin hs hlo hhi⟩
  cases s with
  | «at» at_ => trivial
  | every interval anchor =>
    intro hlt
    obtain ⟨-, -, r, -, -, hr, -⟩ :=
      h lo lo hi le_rfl le_rfl hlt.le le_rfl .skip none 1 .missed .missed .missed (by decide)
    obtain ⟨-, stats, -, -, -, hstats, -⟩ := CompiledSchedule.reconcile_ok hlt hr
    exact le_max_of_rangeStats hlt hstats
  | cron e timezone => exact fun zone hzone => h.countsInOrder hzone

/-! ## A split that loses an occurrence -/

/-- A zone whose clock is set back by an hour at one minute past midnight of `1970-01-01`. -/
def setBack : Zone where
  initial := 0
  transitions := [⟨60000000, -3600000000⟩]
  sorted := List.pairwise_singleton _ _
  initial_bounded := Zone.utc.initial_bounded
  bounded := by decide

/-- With every occurrence kept, a result is read off the enumeration. -/
theorem reconcile_keepAll {after now : Int} (hlt : after < now) {l : List Int}
    (hstats : s.rangeStats zones localZone after now = .ok (OccurrenceStats.ofList l))
    (hnewest : s.newestBetween zones localZone after now 100 = .ok (l.rtake 100))
    (hlen : l.length ≤ 100) :
    s.reconcile zones localZone after now .all none 100 .missed
      = .ok ⟨l.map (fun t => ⟨t, true⟩), []⟩ := by
  have hexpired : s.expiredStats zones localZone after after = .ok OccurrenceStats.default := by
    unfold CompiledSchedule.expiredStats
    rw [if_neg (lt_irrefl _)]
  have htake : l.rtake 100 = l := by
    unfold List.rtake
    rw [Nat.sub_eq_zero_of_le hlen, List.drop_zero]
  have homitted : s.omittedStats zones localZone after .all .missed (OccurrenceStats.ofList l)
      (l.map (fun t => (⟨t, true⟩ : SelectedOccurrence))) = .ok [] := by
    unfold CompiledSchedule.omittedStats
    simp [OccurrenceStats.ofList, List.filter_map, Function.comp_def]
  unfold CompiledSchedule.reconcile
  rw [if_neg (by decide), if_neg (by omega)]
  simp only [deadlineAfter, hexpired, hstats, hnewest, htake, bind, Except.bind, reduceCtorEq,
    if_false, Nat.add_zero, selectOccurrences, retained, homitted]
  rfl

/-- `0 0 * * *`, parsed: midnight of every day. -/
theorem parse_midnight : ∃ e, CronExpression.parse "0 0 * * *" = .ok e ∧
    e.dateMatches 719527 = true ∧ e.dateMatches 719528 = true ∧ e.slots = [(0, 0)] :=
  CronExpression.exists_parse (fun f => f.dateMatches 719528 = true ∧ f.slots = [(0, 0)])
    ⟨_, rfl, by decide, by decide, rfl⟩

/-- **A range that is split where the clock is set back loses the midnight run before it**: neither
part accounts for it, the whole does. -/
theorem reconcile_split_loses_occurrence :
    ∃ e, CronExpression.parse "0 0 * * *" = .ok e ∧
      (CompiledSchedule.cron e .local).reconcile noZones setBack (-60000000) 60000000
        .all none 100 .missed = .ok ⟨[], []⟩ ∧
      (CompiledSchedule.cron e .local).reconcile noZones setBack 60000000 7260000000
        .all none 100 .missed = .ok ⟨[], []⟩ ∧
      (CompiledSchedule.cron e .local).reconcile noZones setBack (-60000000) 7260000000
        .all none 100 .missed = .ok ⟨[⟨0, true⟩], []⟩ ∧
      ¬ SplitsAt (.cron e .local) noZones setBack (-60000000) 60000000 7260000000
        .all none 100 .missed .missed .missed := by
  obtain ⟨e, hparse, hday, hday', hslots⟩ := parse_midnight
  have hfirst : e.dayOccurrences setBack 719527 = [-86400000000] := by
    unfold CronExpression.dayOccurrences
    rw [if_pos hday, hslots]
    rfl
  have hsecond : e.dayOccurrences setBack 719528 = [0] := by
    unfold CronExpression.dayOccurrences
    rw [if_pos hday', hslots]
    rfl
  -- every range below lies on these two dates, so none of its dates is regular
  have hrun : ∀ {x y : Int} {l : List Int}, x < y → Supported x → Supported y →
      719527 ≤ setBack.localDay x → setBack.localDay y ≤ 719528 → e.seen setBack x y = l →
      l.length ≤ 100 →
      (CompiledSchedule.cron e .local).reconcile noZones setBack x y .all none 100 .missed
        = .ok ⟨l.map (fun t => ⟨t, true⟩), []⟩ := by
    intro x y l hxy hx hy h1 h2 hl hlen
    have hsup : e.DatesSupported setBack x y := by
      intro d h3 h4 _
      rw [hslots]
      obtain rfl | rfl : d = 719527 ∨ d = 719528 := by omega
      · decide
      · decide
    apply reconcile_keepAll hxy _ _ hlen
    · rw [rangeStats_cron rfl hxy, ← hl]
      refine e.rangeStats_ofList hx hy hxy.le hsup ?_
      rintro ⟨t, -, -, hreg⟩
      have := hreg.1
      have := hreg.2.1
      omega
    · rw [newestBetween_cron rfl hxy (by decide), ← hl]
      exact e.newestBetween_eq setBack hx hy (by decide) hsup
  have hone : ∀ x y, Blocks.enum (e.block setBack x y) 719527 719528
      = [-86400000000].filter (fun t => x < t ∧ t ≤ y) := by
    intro x y
    rw [Blocks.enum_cons (by decide), Blocks.enum_of_le (by decide), List.append_nil,
      CronExpression.block, hfirst]
  have hboth : ∀ x y, Blocks.enum (e.block setBack x y) 719527 719529
      = [-86400000000, 0].filter (fun t => x < t ∧ t ≤ y) := by
    intro x y
    rw [show (719529 : Int) = 719528 + 1 from rfl, Blocks.enum_succ (by decide), hone,
      CronExpression.block, hsecond, ← List.filter_append]
    rfl
  have hpart₁ := hrun (x := -60000000) (y := 60000000) (by decide) (by decide) (by decide)
    (by decide) (by decide) (l := []) (hone (-60000000) 60000000) (by decide)
  have hpart₂ := hrun (x := 60000000) (y := 7260000000) (by decide) (by decide) (by decide)
    (by decide) (by decide) (l := []) (hboth 60000000 7260000000) (by decide)
  have hwhole := hrun (x := -60000000) (y := 7260000000) (by decide) (by decide) (by decide)
    (by decide) (by decide) (l := [0]) (hboth (-60000000) 7260000000) (by decide)
  refine ⟨e, hparse, hpart₁, hpart₂, hwhole, ?_⟩
  rintro ⟨r₁, r₂, r, hr₁, hr₂, hr, hcount, -⟩
  cases hpart₁.symm.trans hr₁
  cases hpart₂.symm.trans hr₂
  cases hwhole.symm.trans hr
  exact absurd hcount (by decide)

/-- `0 12 * * *`, parsed: noon of every day. -/
theorem parse_noon : ∃ e, CronExpression.parse "0 12 * * *" = .ok e ∧
    e.dateMatches 719527 = true ∧ e.dateMatches 719528 = true ∧ e.slots = [(12, 0)] :=
  CronExpression.exists_parse (fun f => f.dateMatches 719528 = true ∧ f.slots = [(12, 0)])
    ⟨_, rfl, by decide, by decide, rfl⟩

/-- At noon the dates are in order again: the same range can be split there, and the split does not
lose the noon run behind it. -/
theorem reconcile_splits_at_noon :
    ∃ e, CronExpression.parse "0 12 * * *" = .ok e ∧
      46800000000 ∈ e.seen setBack (-60000000) 50400000000 ∧
      SplitsAt (.cron e .local) noZones setBack (-60000000) 60000000 50400000000
        .latest (some 60000000) 100 .missed .missed .normal := by
  obtain ⟨e, hparse, hday, hday', hslots⟩ := parse_noon
  have hfirst : e.dayOccurrences setBack 719527 = [-43200000000] := by
    unfold CronExpression.dayOccurrences
    rw [if_pos hday, hslots]
    rfl
  have hsecond : e.dayOccurrences setBack 719528 = [46800000000] := by
    unfold CronExpression.dayOccurrences
    rw [if_pos hday', hslots]
    rfl
  have hlocal : ∀ x, setBack.localTime x = if x < 60000000 then x else x - 3600000000 := by
    intro x
    simp only [Zone.localTime, Zone.offsetAt, setBack, offsetFrom]
    split <;> omega
  have hdate : ∀ x, -60000000 ≤ x → x ≤ 50400000000 →
      (setBack.localDay x = 719527 ∨ setBack.localDay x = 719528) ∧
        (3600000000 ≤ x → setBack.localDay x = 719528) := by
    intro x h1 h2
    unfold Zone.localDay epochDay dayMicros
    rw [hlocal]
    split <;> omega
  -- the dates are shown twice around midnight, but the time that is counted is noon
  have hord : e.CountsInOrder setBack (-60000000) 50400000000 := by
    refine ⟨fun x y h1 hxy h2 => ⟨Supported.mono (by decide) (by decide : Supported 50400000000) h1
      (by omega), Supported.mono (by decide : Supported (-60000000)) (by decide) (by omega) h2,
      fun d h3 h4 _ => ?_⟩, ?_, ?_⟩
    · have := (hdate x h1 (by omega)).1
      have := (hdate y (by omega) h2).1
      rw [hslots]
      obtain rfl | rfl : d = 719527 ∨ d = 719528 := by omega
      · decide
      · decide
    · intro t hocc h1 h2 _ x h3 h4
      have hmem := (e.occurs_iff setBack).mp hocc
      have hx := hdate x h3 h4
      rcases (hdate t h1.le h2).1 with ht | ht
      · rw [ht, hfirst, List.mem_singleton] at hmem
        omega
      · rw [ht, hsecond, List.mem_singleton] at hmem
        rw [ht]
        omega
    · rintro x y h1 hxy h2 ⟨t, -, -, hreg⟩
      have := (hdate x h1 (by omega)).1
      have := (hdate y (by omega) h2).1
      have := hreg.1
      have := hreg.2.1
      omega
  refine ⟨e, hparse, ?_, ?_⟩
  · refine (e.mem_seen setBack).mpr ⟨⟨719528, by rw [hsecond]; decide⟩, by decide, by decide,
      by decide⟩
  · have hvalid : (CompiledSchedule.cron e .local).Valid noZones setBack := ⟨setBack, rfl⟩
    refine (reconcile_splits_iff hvalid (by decide) (by decide)).mpr ?_ _ _ _ le_rfl
      (by decide) (by decide) le_rfl _ _ _ _ _ _ (by decide)
    intro zone hzone
    cases hzone
    exact hord

end Locron
