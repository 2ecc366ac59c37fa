import Locron.Daemon.Pruning

set_option autoImplicit false

/-! # What the pruners remove

The prune command, the dashboard and the output-limit step of maintenance walk over the artifacts
that were finalized first. Each keeps a running total of its own and decides about every artifact
anew. All three come to the shortest run of oldest artifacts that leaves none older than the cutoff
and a total within the limit (`pruners_agree`).
-/

namespace Locron

def bytesOf (candidates : List RetentionCandidate) : Int :=
  (candidates.map RetentionCandidate.physicalBytes).sum

namespace RetentionCandidate

/-- The artifact is not older than the cutoff, and the total is within the limit. -/
def stays (limit cutoff total : Int) (c : RetentionCandidate) : Bool :=
  cutoff ≤ c.finalizedAt && total ≤ limit

/-- The path that is going to be removed. -/
def checkPath (c : RetentionCandidate) : Except String Unit :=
  Except.ensure (c.attemptNumber ≤ 65535) "retention attempt number is outside path range"
    >>= fun _ =>
    Except.ensure (c.relativePath = OutputRow.finalPath c.runId c.attemptNumber)
      "database output path is not the canonical final path"

theorem checkPath_eq_ok {c : RetentionCandidate} (h : c.canonical = true) :
    c.checkPath = .ok () := by
  simp only [canonical, Bool.and_eq_true, decide_eq_true_eq] at h
  unfold checkPath Except.ensure
  rw [if_pos h.1, if_pos h.2]
  rfl

end RetentionCandidate

/-- What an explicit prune removes of its plan: it stops at the first removal that fails. -/
def removed (removes : RetentionCandidate → Bool) :
    Except String (List RetentionCandidate × Int) → List RetentionCandidate
  | .ok plan => plan.1.takeWhile removes
  | .error _ => []

/-! ## Explicit pruning -/

/-- The loop over the candidates: the artifacts to prune and their bytes, of which `bytes` are
selected already. The two programs differ in what they check on the way and in how they keep the
total. -/
def selectWith (check : RetentionCandidate → Except String Unit) (clamp : Int → Int)
    (overflow : String) (limit cutoff : Int) :
    Int → Int → List RetentionCandidate → Except String (List RetentionCandidate × Int)
  | _, bytes, [] => .ok ([], bytes)
  | projected, bytes, c :: rest =>
    if c.physicalBytes < 0 then .error "output artifact byte count must be non-negative"
    else if c.stays limit cutoff projected then
      selectWith check clamp overflow limit cutoff projected bytes rest
    else check c >>= fun _ => match checked (bytes + c.physicalBytes) with
      | none => .error overflow
      | some bytes =>
        (selectWith check clamp overflow limit cutoff
          (clamp (saturate (projected - c.physicalBytes)))
          bytes rest).map (fun plan => (c :: plan.1, plan.2))

namespace Cli

def select : Int → Int → Int → Int → List RetentionCandidate →
    Except String (List RetentionCandidate × Int) :=
  selectWith (fun _ => .ok ()) (max · 0) "selected output byte count exceeds supported range"

/-- All paths are checked after the selection, before the first artifact is marked. -/
def planPrune (limit cutoff total : Int) (candidates : List RetentionCandidate) :
    Except String (List RetentionCandidate × Int) :=
  if total < 0 ∨ limit < 0 then .error "output byte accounting must be non-negative"
  else select limit cutoff total 0 candidates >>= fun plan =>
    Except.forEach RetentionCandidate.checkPath plan.1 >>= fun _ => .ok plan

end Cli

namespace Dashboard

/-- Paths are checked as they are selected, and the running total may fall below zero. -/
def select : Int → Int → Int → Int → List RetentionCandidate →
    Except String (List RetentionCandidate × Int) :=
  selectWith RetentionCandidate.checkPath id "selected output byte count overflow"

def planPrune (limit cutoff total : Int) (candidates : List RetentionCandidate) :
    Except String (List RetentionCandidate × Int) :=
  if total < 0 ∨ limit < 0 then .error "output retention byte totals must be non-negative"
  else select limit cutoff total 0 candidates

end Dashboard

/-! ## Maintenance -/

/-- The output-limit step of maintenance with its remaining actions; an artifact whose removal fails
takes an action and stays in the total. -/
def Maintenance.pruneOutputLimits (removes : RetentionCandidate → Bool) (limit cutoff : Int) :
    Nat → Int → List RetentionCandidate → List RetentionCandidate
  | _, _, [] => []
  | remaining, retained, c :: rest =>
    if c.stays limit cutoff retained then
      pruneOutputLimits removes limit cutoff remaining retained rest
    else match remaining with
      | 0 => []
      | remaining + 1 =>
        if c.canonical && removes c then
          c :: pruneOutputLimits removes limit cutoff remaining
            (saturate (retained - c.physicalBytes)) rest
        else pruneOutputLimits removes limit cutoff remaining retained rest

/-! ## The walk that all of them make -/

/-- The artifacts that do not stay, with exact totals. -/
def selection (limit cutoff : Int) : Int → List RetentionCandidate → List RetentionCandidate
  | _, [] => []
  | total, c :: rest =>
    if c.stays limit cutoff total then selection limit cutoff total rest
    else c :: selection limit cutoff (total - c.physicalBytes) rest

section Walk

variable {limit cutoff total bytes : Int} {c : RetentionCandidate}
  {rest candidates : List RetentionCandidate}

theorem bytesOf_cons : bytesOf (c :: rest) = c.physicalBytes + bytesOf rest := by
  simp [bytesOf]

theorem bytesOf_nonneg (h : ∀ c ∈ candidates, 0 ≤ c.physicalBytes) : 0 ≤ bytesOf candidates := by
  refine List.sum_nonneg (fun x hx => ?_)
  obtain ⟨c, hc, rfl⟩ := List.mem_map.mp hx
  exact h c hc

/-- A total that is not kept below zero makes the same decisions: the limit is not negative. -/
theorem stays_clamp {clamp : Int → Int} (hclamp : clamp = id ∨ clamp = (max · 0))
    (hlimit : 0 ≤ limit) : c.stays limit cutoff (clamp total) = c.stays limit cutoff total := by
  rcases hclamp with rfl | rfl
  · rfl
  · simp [RetentionCandidate.stays, hlimit]

/-- One subtraction, whether or not the total was kept above zero before. -/
theorem clamp_sub {clamp : Int → Int} (hclamp : clamp = id ∨ clamp = (max · 0)) {taken : Int}
    (htaken : 0 ≤ taken) (hlow : i64Min ≤ total - taken) (hhigh : total ≤ i64Max) :
    clamp (saturate (clamp total - taken)) = clamp (total - taken) := by
  have hzero : i64Min ≤ 0 ∧ 0 ≤ i64Max := by decide
  rcases hclamp with rfl | rfl
  · exact saturate_eq_self ⟨hlow, by dsimp only [id]; omega⟩
  · rw [saturate_eq_self ⟨by dsimp only; omega, by dsimp only; omega⟩]
    dsimp only
    omega

/-- Neither the check nor the way to keep the total matters. -/
theorem selectWith_eq {check : RetentionCandidate → Except String Unit} {clamp : Int → Int}
    {overflow : String} (hcheck : ∀ c, c.canonical = true → check c = .ok ())
    (hclamp : clamp = id ∨ clamp = (max · 0)) (hlimit : 0 ≤ limit)
    (hcounted : ∀ c ∈ candidates, 0 ≤ c.physicalBytes)
    (hcanonical : ∀ c ∈ candidates, c.canonical = true)
    (hlow : i64Min ≤ total - bytesOf candidates) (hhigh : total ≤ i64Max) (hbytes : 0 ≤ bytes)
    (hsum : bytes + bytesOf candidates ≤ i64Max) :
    selectWith check clamp overflow limit cutoff (clamp total) bytes candidates =
      .ok (selection limit cutoff total candidates,
        bytes + bytesOf (selection limit cutoff total candidates)) := by
  induction candidates generalizing total bytes with
  | nil => simp [selectWith, selection, bytesOf]
  | cons c rest ih =>
    obtain ⟨hc, hcounted⟩ := List.forall_mem_cons.mp hcounted
    obtain ⟨hpath, hcanonical⟩ := List.forall_mem_cons.mp hcanonical
    have hrest := bytesOf_nonneg hcounted
    rw [bytesOf_cons] at hlow hsum
    rw [selectWith, selection, if_neg hc.not_gt, stays_clamp hclamp hlimit]
    split
    · exact ih hcounted hcanonical (by omega) hhigh hbytes (by omega)
    have hadd : checked (bytes + c.physicalBytes) = some (bytes + c.physicalBytes) :=
      checked_eq_some ⟨by unfold i64Min; omega, by omega⟩
    rw [hcheck c hpath, hadd, clamp_sub hclamp hc (by omega) hhigh, bytesOf_cons, ← add_assoc]
    show Except.map _ (selectWith check clamp overflow limit cutoff
      (clamp (total - c.physicalBytes)) (bytes + c.physicalBytes) rest) = _
    rw [ih hcounted hcanonical (by omega) (by omega) (by omega) (by omega)]
    rfl

theorem pruneOutputLimits_eq (hcounted : ∀ c ∈ candidates, 0 ≤ c.physicalBytes)
    (hcanonical : ∀ c ∈ candidates, c.canonical = true)
    (hlow : i64Min ≤ total - bytesOf candidates) (hhigh : total ≤ i64Max) {remaining : Nat}
    (hremaining : candidates.length ≤ remaining) :
    Maintenance.pruneOutputLimits (fun _ => true) limit cutoff remaining total candidates =
      selection limit cutoff total candidates := by
  induction candidates generalizing total remaining with
  | nil => rfl
  | cons c rest ih =>
    obtain ⟨hc, hcounted⟩ := List.forall_mem_cons.mp hcounted
    obtain ⟨hpath, hcanonical⟩ := List.forall_mem_cons.mp hcanonical
    have hrest := bytesOf_nonneg hcounted
    rw [bytesOf_cons] at hlow
    rw [List.length_cons] at hremaining
    obtain ⟨remaining, rfl⟩ : ∃ n, remaining = n + 1 := ⟨remaining - 1, by omega⟩
    unfold Maintenance.pruneOutputLimits selection
    split
    · exact ih hcounted hcanonical (by omega) hhigh (by omega)
    dsimp only
    rw [hpath, Bool.and_true, if_pos rfl, saturate_eq_self ⟨by omega, by omega⟩,
      ih hcounted hcanonical (by omega) (by omega) (by omega)]

theorem mem_of_mem_selection {x : RetentionCandidate}
    (h : x ∈ selection limit cutoff total candidates) : x ∈ candidates := by
  induction candidates generalizing total with
  | nil => exact h
  | cons c rest ih =>
    rw [selection] at h
    split at h
    · exact List.mem_cons_of_mem c (ih h)
    rcases List.mem_cons.mp h with rfl | h
    · exact List.mem_cons_self
    · exact List.mem_cons_of_mem c (ih h)

end Walk

/-! ## The shortest run of oldest artifacts -/

/-- After the first `k` artifacts are removed, none is older than the cutoff and the total is within
the limit. -/
def Settled (limit cutoff total : Int) (candidates : List RetentionCandidate) (k : Nat) : Prop :=
  (∀ c ∈ candidates.drop k, cutoff ≤ c.finalizedAt) ∧ total - bytesOf (candidates.take k) ≤ limit

section Shortest

variable {limit cutoff total : Int} {candidates : List RetentionCandidate}

theorem selection_of_settled (h : Settled limit cutoff total candidates 0) :
    selection limit cutoff total candidates = [] := by
  induction candidates with
  | nil => rfl
  | cons c rest ih =>
    obtain ⟨hyoung, htotal⟩ := h
    rw [List.take_zero, bytesOf, List.map_nil, List.sum_nil, sub_zero] at htotal
    have hstays : c.stays limit cutoff total = true := by
      simp [RetentionCandidate.stays, hyoung c List.mem_cons_self, htotal]
    rw [selection, if_pos hstays]
    refine ih ⟨fun x hx => hyoung x (List.mem_cons_of_mem c hx), ?_⟩
    simpa [bytesOf] using htotal

/-- The walk takes the shortest settled run, or everything if there is none. -/
theorem selection_shortest
    (hsorted : candidates.Pairwise (fun a b => a.finalizedAt ≤ b.finalizedAt)) :
    ∃ k, selection limit cutoff total candidates = candidates.take k ∧
      (∀ j, Settled limit cutoff total candidates j → k ≤ j) ∧
      (Settled limit cutoff total candidates k ∨ k = candidates.length) := by
  induction candidates generalizing total with
  | nil => exact ⟨0, rfl, fun _ _ => Nat.zero_le _, Or.inr rfl⟩
  | cons c rest ih =>
    obtain ⟨hfirst, hrest⟩ := List.pairwise_cons.mp hsorted
    by_cases hstays : c.stays limit cutoff total = true
    · simp only [RetentionCandidate.stays, Bool.and_eq_true, decide_eq_true_eq] at hstays
      have hsettled : Settled limit cutoff total (c :: rest) 0 := by
        refine ⟨fun x hx => ?_, by simpa [bytesOf] using hstays.2⟩
        rcases List.mem_cons.mp hx with rfl | hx
        · exact hstays.1
        · exact hstays.1.trans (hfirst x hx)
      exact ⟨0, selection_of_settled hsettled, fun _ _ => Nat.zero_le _, Or.inl hsettled⟩
    · -- a run of at least one artifact is settled iff the rest of it is, for the smaller total
      have hstep : ∀ k, Settled limit cutoff total (c :: rest) (k + 1) ↔
          Settled limit cutoff (total - c.physicalBytes) rest k := by
        intro k
        unfold Settled
        rw [List.drop_succ_cons, List.take_succ_cons, bytesOf_cons, sub_sub]
      have hfew : ¬Settled limit cutoff total (c :: rest) 0 := by
        rintro ⟨hyoung, htotal⟩
        refine hstays ?_
        rw [List.take_zero, bytesOf, List.map_nil, List.sum_nil, sub_zero] at htotal
        simp [RetentionCandidate.stays, hyoung c List.mem_cons_self, htotal]
      obtain ⟨k, htake, hleast, hend⟩ := @ih (total - c.physicalBytes) hrest
      refine ⟨k + 1, by rw [selection, if_neg hstays, htake, List.take_succ_cons], fun j hj => ?_,
        hend.imp (hstep k).mpr (fun h => by rw [h, List.length_cons])⟩
      cases j with
      | zero => exact absurd hj hfew
      | succ j => exact Nat.succ_le_succ (hleast j ((hstep j).mp hj))

end Shortest

/-! ## Agreement -/

/-- **The three pruners remove the same artifacts**, as long as every removal succeeds and
maintenance has an action for each of them: the shortest run of oldest artifacts after which none of
the window is older than the cutoff and the total is within the limit, or the whole window if no run
gets there. The total is read apart from the artifacts, so it may be less than their sum. -/
theorem pruners_agree {candidates : List RetentionCandidate} {total : Int}
    (hsorted : candidates.Pairwise (fun a b => a.finalizedAt ≤ b.finalizedAt))
    (hcounted : ∀ c ∈ candidates, 0 ≤ c.physicalBytes)
    (hcanonical : ∀ c ∈ candidates, c.canonical = true) (hsum : bytesOf candidates ≤ i64Max)
    (htotal : 0 ≤ total) (hhigh : total ≤ i64Max) (limit : Nat) (cutoff : Int) (spare : Nat) :
    ∃ k, removed (fun _ => true) (Cli.planPrune limit cutoff total candidates) = candidates.take k ∧
      removed (fun _ => true) (Dashboard.planPrune limit cutoff total candidates) =
        candidates.take k ∧
      Maintenance.pruneOutputLimits (fun _ => true) limit cutoff (candidates.length + spare) total
        candidates = candidates.take k ∧
      (∀ j, Settled limit cutoff total candidates j → k ≤ j) ∧
      (Settled limit cutoff total candidates k ∨ k = candidates.length) := by
  obtain ⟨k, htake, hleast, hend⟩ := @selection_shortest limit cutoff total _ hsorted
  have hlow : i64Min ≤ total - bytesOf candidates := by unfold i64Min; unfold i64Max at hsum; omega
  have hvalid : ¬(total < 0 ∨ (limit : Int) < 0) := by omega
  have hall : (selection limit cutoff total candidates).takeWhile (fun _ => true) =
      candidates.take k := by rw [htake, List.takeWhile_eq_self_iff.mpr fun _ _ => rfl]
  refine ⟨k, ?_, ?_, ?_, hleast, hend⟩
  -- the command selects without a look at the paths and checks them all afterwards
  · have hpaths : Except.forEach RetentionCandidate.checkPath
        (selection limit cutoff total candidates) = .ok () := Except.forEach_eq_ok.mpr fun c hc =>
      RetentionCandidate.checkPath_eq_ok (hcanonical c (mem_of_mem_selection hc))
    have hselect := @selectWith_eq _ cutoff total 0 candidates (fun _ => .ok ()) (max · 0)
      "selected output byte count exceeds supported range" (fun _ _ => rfl) (Or.inr rfl)
      (Int.natCast_nonneg limit) hcounted hcanonical hlow hhigh le_rfl (by omega)
    rw [max_eq_left htotal] at hselect
    rw [Cli.planPrune, if_neg hvalid, Cli.select, hselect]
    show removed _ (Except.forEach RetentionCandidate.checkPath _ >>= fun _ => _) = _
    rw [hpaths]
    exact hall
  -- the dashboard checks each path on the way
  · have hselect := @selectWith_eq _ cutoff total 0 candidates RetentionCandidate.checkPath id
      "selected output byte count overflow" (fun _ => RetentionCandidate.checkPath_eq_ok)
        (Or.inl rfl)
      (Int.natCast_nonneg limit) hcounted hcanonical hlow hhigh le_rfl (by omega)
    rw [Dashboard.planPrune, if_neg hvalid, Dashboard.select]
    exact (congrArg (removed _) hselect).trans hall
  · rw [pruneOutputLimits_eq hcounted hcanonical hlow hhigh (Nat.le_add_right _ spare), htake]

/-- Two artifacts of a hundred bytes, and a total from which one of them is missing. -/
theorem pruners_agree_below_sum :
    let outputs : List RetentionCandidate :=
      [⟨1, 1, OutputRow.finalPath 1 1, 100, 5⟩, ⟨2, 1, OutputRow.finalPath 2 1, 100, 10⟩]
    90 < bytesOf outputs ∧ ∃ k ≤ 1,
      removed (fun _ => true) (Cli.planPrune (0 : Nat) 0 90 outputs) = outputs.take k ∧
      removed (fun _ => true) (Dashboard.planPrune (0 : Nat) 0 90 outputs) = outputs.take k := by
  intro outputs
  obtain ⟨k, hcli, hdashboard, -, hleast, -⟩ := @pruners_agree outputs 90 (by decide) (by decide)
    (by decide) (by decide) (by decide) (by decide) 0 0 0
  refine ⟨by decide, k, hleast 1 ?_, hcli, hdashboard⟩
  unfold Settled
  decide

end Locron
