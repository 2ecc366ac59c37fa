import Locron.Lib.OrdSet

set_option autoImplicit false

/-! # Taking turns

Items wait in queues, one queue for each key. In a round every key takes its turn, in a fixed order:
the first item of its queue is accepted or dropped. Rounds go on until enough items are accepted or
no item waits. If the test of an item looks only at what was accepted of its own queue, then the
accepted items are the first of all turns (`turns`), round by round, without the dropped ones
(`rounds_eq`).

A dropped item uses up the turn of its key. `turns_filter_eq_iff` says when this makes no difference
to dropping the items before the turns begin.
-/

namespace Turns

variable {κ α ε : Type} [LinearOrder κ]

def queue (key : α → κ) (items : List α) (k : κ) : List α := items.filter (fun a => key a = k)

/-- The keys in order, rotated to start after the last one. -/
def rotation (last : Option κ) (keys : List κ) : List κ :=
  let keys := (OrdSet.ofList keys).toList
  match last with
  | none => keys
  | some last => keys.filter (fun k => last < k) ++ keys.filter (fun k => k ≤ last)

def turns (keys : List κ) (Q : κ → List α) (n : Nat) : List α :=
  (List.range n).flatMap (fun round => keys.filterMap (fun k => (Q k)[round]?))

/-! ## The loop -/

/-- The items that wait, and those accepted so far. -/
structure State (α : Type) where
  waiting : List α
  selected : List α

/-- The item leaves its queue, and is selected if it is accepted. -/
def State.take (key : α → κ) (k : κ) (a : α) (accepted : Bool) (st : State α) : State α :=
  ⟨st.waiting.eraseP (fun a => key a = k), if accepted then st.selected ++ [a] else st.selected⟩

section Loop

variable (key : α → κ) (accept : List α → α → Except ε Bool) (capacity : Nat)

/-- One round over the keys; stops as soon as enough items are accepted. -/
def pass : List κ → State α → Except ε (State α)
  | [], st => .ok st
  | k :: keys, st =>
    match st.waiting.find? (fun a => key a = k) with
    | none => pass keys st
    | some a =>
      match accept st.selected a with
      | .error e => .error e
      | .ok accepted =>
        let st' := st.take key k a accepted
        if st'.selected.length = capacity then .ok st' else pass keys st'

/-- Rounds until enough items are accepted or a round takes no item. -/
def rounds (keys : List κ) : Nat → State α → Except ε (State α)
  | 0, st => .ok st
  | fuel + 1, st =>
    if capacity ≤ st.selected.length then .ok st
    else
      match pass key accept capacity keys st with
      | .error e => .error e
      | .ok st' =>
        if st'.waiting.length = st.waiting.length then .ok st'
        else rounds keys fuel st'

end Loop

/-! ## Queues -/

section Queue

variable {key : α → κ} {items : List α}

theorem mem_queue {k : κ} {a : α} : a ∈ queue key items k ↔ a ∈ items ∧ key a = k := by
  simp [queue]

theorem find?_eq_head? (k : κ) :
    items.find? (fun a => key a = k) = (queue key items k).head? := by
  unfold queue
  rw [List.head?_filter]

theorem queue_eraseP (k : κ) :
    queue key (items.eraseP (fun a => key a = k)) k = (queue key items k).tail := by
  induction items with
  | nil => rfl
  | cons a items ih =>
    unfold queue at ih ⊢
    by_cases ha : key a = k
    · simp [ha]
    · simp [ha, ih]

theorem queue_eraseP_of_ne {k k' : κ} (h : k' ≠ k) :
    queue key (items.eraseP (fun a => key a = k)) k' = queue key items k' := by
  induction items with
  | nil => rfl
  | cons a items ih =>
    unfold queue at ih ⊢
    by_cases ha : key a = k
    · have ha' : key a ≠ k' := fun heq => h (heq.symm.trans ha)
      simp [ha, h.symm]
    · simp only [ha, decide_false, List.eraseP_cons_of_neg, Bool.false_eq_true, not_false_eq_true,
        List.filter_cons, ih]

theorem queue_filter (p : α → Bool) (k : κ) :
    queue key (items.filter p) k = (queue key items k).filter p := by
  unfold queue
  rw [List.filter_filter, List.filter_filter]
  exact List.filter_congr fun a _ => Bool.and_comm _ _

theorem queue_map {β : Type} (f : β → α) (items : List β) (k : κ) :
    queue key (items.map f) k = (queue (fun b => key (f b)) items k).map f := by
  unfold queue
  rw [List.filter_map]
  rfl

theorem length_queue_le (k : κ) : (queue key items k).length ≤ items.length :=
  List.length_filter_le _ _

theorem nodup_queue (h : items.Nodup) (k : κ) : (queue key items k).Nodup := h.filter _

end Queue

/-! ## The turns -/

section Turns

omit [LinearOrder κ]

variable {keys : List κ} {Q : κ → List α}

theorem mem_turns {n : Nat} {a : α} :
    a ∈ turns keys Q n ↔ ∃ round < n, ∃ k ∈ keys, (Q k)[round]? = some a := by
  simp [turns]

theorem turns_succ (n : Nat) :
    turns keys Q (n + 1) = keys.filterMap (fun k => (Q k).head?)
      ++ turns keys (fun k => (Q k).tail) n := by
  unfold turns
  rw [List.range_succ_eq_map, List.flatMap_cons, List.flatMap_map]
  congr 1
  · simp only [List.head?_eq_getElem?]
  · simp only [List.getElem?_tail]

theorem turns_congr {Q' : κ → List α} (h : ∀ k ∈ keys, Q k = Q' k) (n : Nat) :
    turns keys Q n = turns keys Q' n := by
  unfold turns
  congr 1
  funext round
  apply List.filterMap_congr
  intro k hk
  rw [h k hk]

theorem turns_eq_nil (h : ∀ k ∈ keys, Q k = []) (n : Nat) : turns keys Q n = [] := by
  rw [List.eq_nil_iff_forall_not_mem]
  intro a ha
  obtain ⟨round, -, k, hk, hget⟩ := mem_turns.mp ha
  rw [h k hk] at hget
  simp at hget

theorem turns_map {β : Type} (f : α → β) (n : Nat) :
    turns keys (fun k => (Q k).map f) n = (turns keys Q n).map f := by
  unfold turns
  rw [List.map_flatMap]
  congr 1
  funext round
  rw [List.map_filterMap]
  apply List.filterMap_congr
  intro k _
  rw [List.getElem?_map]

end Turns

/-! ## What the loop selects -/

def fits (verdict : α → Except ε Bool) (a : α) : Bool :=
  match verdict a with
  | .ok accepted => accepted
  | .error _ => false

/-- The test of an item depends only on what was accepted of the items ahead of it in its queue. -/
def Decides (key : α → κ) (accept : List α → α → Except ε Bool) (verdict : α → Except ε Bool)
    (items : List α) : Prop :=
  ∀ selected a ahead behind, queue key items (key a) = ahead ++ a :: behind →
    queue key selected (key a) = ahead.filter (fits verdict) → accept selected a = verdict a

/-- Of every queue a front part was taken, and of this part the accepted items are selected. -/
def Consistent (key : α → κ) (verdict : α → Except ε Bool) (items : List α) (st : State α) : Prop :=
  ∀ k, ∃ taken, queue key items k = taken ++ queue key st.waiting k ∧
    queue key st.selected k = taken.filter (fits verdict)

theorem consistent_start (key : α → κ) (verdict : α → Except ε Bool) (items : List α) :
    Consistent key verdict items ⟨items, []⟩ :=
  fun _ => ⟨[], rfl, rfl⟩

section Spec

variable {key : α → κ} {accept : List α → α → Except ε Bool} {verdict : α → Except ε Bool}
  {items : List α} {capacity : Nat} {st st' : State α} {k : κ} {a : α}

/-- The first item of a queue is tested by its verdict. -/
theorem Consistent.accept_eq (h : Consistent key verdict items st)
    (hdecides : Decides key accept verdict items)
    (hfind : st.waiting.find? (fun a => key a = k) = some a) :
    key a = k ∧ a ∈ items ∧ accept st.selected a = verdict a := by
  have hkey : key a = k := by simpa using List.find?_some hfind
  subst hkey
  obtain ⟨taken, hqueue, hselected⟩ := h (key a)
  rw [find?_eq_head?] at hfind
  obtain ⟨behind, hbehind⟩ := List.head?_eq_some_iff.mp hfind
  rw [hbehind] at hqueue
  have hmem : a ∈ queue key items (key a) := by simp [hqueue]
  exact ⟨rfl, (mem_queue.mp hmem).1, hdecides _ a taken behind hqueue hselected⟩

/-- Taking the first item of a queue, and selecting it if it is accepted. -/
theorem Consistent.take (h : Consistent key verdict items st)
    (hfind : st.waiting.find? (fun a => key a = k) = some a) :
    Consistent key verdict items (st.take key k a (fits verdict a)) := by
  have hkey : key a = k := by simpa using List.find?_some hfind
  intro k'
  unfold State.take
  obtain ⟨taken, hqueue, hselected⟩ := h k'
  by_cases hk : k' = k
  · subst hk
    rw [find?_eq_head?] at hfind
    obtain ⟨behind, hbehind⟩ := List.head?_eq_some_iff.mp hfind
    refine ⟨taken ++ [a], ?_, ?_⟩
    · rw [queue_eraseP, hqueue, hbehind, List.tail_cons, List.append_assoc]
      rfl
    · rw [List.filter_append, ← hselected]
      cases hfits : fits verdict a with
      | true => simp [queue, hfits, hkey]
      | false => simp [queue, hfits]
  · refine ⟨taken, ?_, ?_⟩
    · rw [queue_eraseP_of_ne hk, hqueue]
    rw [← hselected]
    have hne : key a ≠ k' := fun heq => hk (heq.symm.trans hkey)
    cases fits verdict a with
    | true => simp [queue, hne]
    | false => simp [queue]

theorem fits_of_verdict {accepted : Bool} (h : verdict a = .ok accepted) :
    fits verdict a = accepted := by
  simp [fits, h]

/-- A round takes an item unless all its queues are empty. -/
theorem pass_progress {keys : List κ} (h : pass key accept capacity keys st = .ok st') :
    st'.waiting.length ≤ st.waiting.length ∧
      (st'.waiting.length = st.waiting.length → ∀ k ∈ keys, queue key st.waiting k = []) := by
  induction keys generalizing st with
  | nil =>
    cases h
    simp
  | cons k keys ih =>
    unfold pass at h
    cases hfind : st.waiting.find? (fun a => key a = k) with
    | none =>
      simp only [hfind] at h
      obtain ⟨hle, hnone⟩ := ih h
      refine ⟨hle, fun heq k' hk' => ?_⟩
      rcases List.mem_cons.mp hk' with rfl | hk'
      · rw [find?_eq_head?] at hfind
        exact List.head?_eq_none_iff.mp hfind
      · exact hnone heq k' hk'
    | some a =>
      have hshorter : ∀ accepted,
          (st.take key k a accepted).waiting.length < st.waiting.length := by
        intro accepted
        show (st.waiting.eraseP (fun a => key a = k)).length < _
        have hmem := List.mem_of_find?_eq_some hfind
        have hkey := List.find?_some hfind
        rw [List.length_eraseP_of_mem hmem hkey]
        have := List.length_pos_of_mem hmem
        omega
      simp only [hfind] at h
      cases hverdict : accept st.selected a with
      | error e =>
        simp only [hverdict] at h
        cases h
      | ok accepted =>
        simp only [hverdict] at h
        have hle : st'.waiting.length ≤ (st.take key k a accepted).waiting.length := by
          split at h
          · cases h
            exact le_rfl
          · exact (ih h).1
        have := hshorter accepted
        exact ⟨by omega, fun heq => by omega⟩

/-- A round that ends keeps the state consistent, and has tested what it took. -/
theorem pass_consistent (hdecides : Decides key accept verdict items) {keys : List κ}
    (hst : Consistent key verdict items st) (h : pass key accept capacity keys st = .ok st') :
    Consistent key verdict items st' ∧
      ∀ b ∈ st.waiting, b ∈ st'.waiting ∨ ∃ accepted, verdict b = .ok accepted := by
  induction keys generalizing st with
  | nil =>
    cases h
    exact ⟨hst, fun b hb => Or.inl hb⟩
  | cons k keys ih =>
    unfold pass at h
    cases hfind : st.waiting.find? (fun a => key a = k) with
    | none =>
      simp only [hfind] at h
      exact ih hst h
    | some a =>
      obtain ⟨-, -, haccept⟩ := hst.accept_eq hdecides hfind
      have htake := hst.take hfind
      simp only [hfind, haccept] at h
      cases hverdict : verdict a with
      | error e =>
        simp only [hverdict] at h
        cases h
      | ok accepted =>
        rw [fits_of_verdict hverdict] at htake
        simp only [hverdict] at h
        have hrest : ∀ b ∈ st.waiting, b ∈ (st.take key k a accepted).waiting ∨
            ∃ accepted, verdict b = .ok accepted := by
          intro b hb
          obtain ⟨-, before, behind, hwaiting, hbefore⟩ :=
            List.find?_eq_some_iff_append.mp hfind
          have herase : (st.take key k a accepted).waiting = before ++ behind := by
            show st.waiting.eraseP (fun a => key a = k) = _
            rw [hwaiting, List.eraseP_append_right _ (by simpa using hbefore),
              List.eraseP_cons_of_pos (List.find?_some hfind)]
          rw [hwaiting, List.mem_append, List.mem_cons] at hb
          rw [herase, List.mem_append]
          rcases hb with hb | rfl | hb
          · exact Or.inl (Or.inl hb)
          · exact Or.inr ⟨accepted, hverdict⟩
          · exact Or.inl (Or.inr hb)
        split at h
        · cases h
          exact ⟨htake, hrest⟩
        obtain ⟨hconsistent, htested⟩ := ih htake h
        refine ⟨hconsistent, fun b hb => ?_⟩
        rcases hrest b hb with hb | hb
        · exact htested b hb
        · exact Or.inr hb

theorem take_append_take (xs ys : List α) (n : Nat) :
    (xs.take n ++ ys).take n = (xs ++ ys).take n := by
  rcases Nat.lt_or_ge xs.length n with h | h
  · rw [List.take_of_length_le h.le]
  · rw [List.take_append_of_le_length (by rw [List.length_take]; omega), List.take_take, min_self,
      List.take_append_of_le_length h]

/-- **A round selects the accepted ones of the first items**, up to the capacity. -/
theorem pass_eq (hdecides : Decides key accept verdict items)
    (hreadable : ∀ a ∈ items, ∃ accepted, verdict a = .ok accepted) {keys : List κ}
    (hkeys : keys.Nodup) (hst : Consistent key verdict items st)
    (hlength : st.selected.length < capacity) :
    ∃ st', pass key accept capacity keys st = .ok st' ∧
      st'.selected = (st.selected ++ (keys.filterMap
        (fun k => (queue key st.waiting k).head?)).filter (fits verdict)).take capacity ∧
      (∀ k ∉ keys, queue key st'.waiting k = queue key st.waiting k) ∧
      (st'.selected.length < capacity →
        ∀ k ∈ keys, queue key st'.waiting k = (queue key st.waiting k).tail) := by
  induction keys generalizing st with
  | nil =>
    refine ⟨st, rfl, ?_, fun _ _ => rfl, fun _ _ hk => absurd hk List.not_mem_nil⟩
    rw [List.filterMap_nil, List.filter_nil, List.append_nil, List.take_of_length_le hlength.le]
  | cons k keys ih =>
    obtain ⟨hk, hnodup⟩ := List.nodup_cons.mp hkeys
    unfold pass
    cases hfind : st.waiting.find? (fun a => key a = k) with
    | none =>
      have hempty : queue key st.waiting k = [] := by
        rw [find?_eq_head?] at hfind
        exact List.head?_eq_none_iff.mp hfind
      obtain ⟨st', hpass, hselected, hother, htail⟩ := ih hnodup hst hlength
      refine ⟨st', hpass, ?_, fun k' hk' => hother k' (by simp_all), fun hfull k' hk' => ?_⟩
      · rw [hselected, List.filterMap_cons, hempty]
        rfl
      · rcases List.mem_cons.mp hk' with rfl | hk'
        · rw [hother k' hk, hempty]
          rfl
        · exact htail hfull k' hk'
    | some a =>
      obtain ⟨-, ha, haccept⟩ := hst.accept_eq hdecides hfind
      have htake := hst.take hfind
      obtain ⟨accepted, hverdict⟩ := hreadable a ha
      rw [fits_of_verdict hverdict] at htake
      have hhead : (queue key st.waiting k).head? = some a := by rwa [← find?_eq_head?]
      simp only [haccept, hverdict]
      have hselected : (st.take key k a accepted).selected
          = st.selected ++ [a].filter (fits verdict) := by
        unfold State.take
        rw [← fits_of_verdict hverdict]
        cases hfits : fits verdict a with
        | true | false => simp [hfits]
      have hheads : ((k :: keys).filterMap (fun k => (queue key st.waiting k).head?)).filter
          (fits verdict) = [a].filter (fits verdict) ++ (keys.filterMap
            (fun k => (queue key st.waiting k).head?)).filter (fits verdict) := by
        rw [List.filterMap_cons, hhead, ← List.filter_append]
        rfl
      have hother : ∀ k' ≠ k, queue key (st.take key k a accepted).waiting k'
          = queue key st.waiting k' := fun k' hne => queue_eraseP_of_ne hne
      have hlast : queue key (st.take key k a accepted).waiting k
          = (queue key st.waiting k).tail := queue_eraseP k
      rw [hheads, ← List.append_assoc, ← hselected]
      by_cases hfull : (st.take key k a accepted).selected.length = capacity
      · -- the capacity is used up in the middle of the round
        rw [if_pos hfull]
        refine ⟨_, rfl, ?_, fun k' hk' => hother k' (by simp_all), fun hlt => by omega⟩
        rw [List.take_append_of_le_length hfull.ge, List.take_of_length_le hfull.le]
      · rw [if_neg hfull]
        have hshort : (st.take key k a accepted).selected.length < capacity := by
          have hle : ([a].filter (fits verdict)).length ≤ 1 := List.length_filter_le _ _
          rw [hselected, List.length_append] at hfull ⊢
          omega
        obtain ⟨st', hpass, hst', hkept, htail⟩ := ih hnodup htake hshort
        have hsame : keys.filterMap (fun k' =>
            (queue key (st.take key k a accepted).waiting k').head?)
              = keys.filterMap (fun k' => (queue key st.waiting k').head?) := by
          apply List.filterMap_congr
          intro k' hk'
          rw [hother k' fun heq => hk (heq ▸ hk')]
        refine ⟨st', hpass, by rw [hst', hsame], fun k' hk' => ?_, fun hlt k' hk' => ?_⟩
        · rw [List.mem_cons, not_or] at hk'
          rw [hkept k' hk'.2, hother k' hk'.1]
        · rcases List.mem_cons.mp hk' with rfl | hk'
          · rw [hkept k' hk, hlast]
          · rw [htail hlt k' hk', hother k' fun heq => hk (heq ▸ hk')]

/-- **The loop selects the accepted ones of all turns**, up to the capacity. -/
theorem rounds_eq (hdecides : Decides key accept verdict items)
    (hreadable : ∀ a ∈ items, ∃ accepted, verdict a = .ok accepted) {keys : List κ}
    (hkeys : keys.Nodup) {fuel : Nat} (hst : Consistent key verdict items st)
    (hlength : st.selected.length ≤ capacity) (hfuel : st.waiting.length < fuel) :
    ∃ st', rounds key accept capacity keys fuel st = .ok st' ∧
      st'.selected = (st.selected ++ (turns keys (queue key st.waiting) fuel).filter
        (fits verdict)).take capacity := by
  induction fuel generalizing st with
  | zero => omega
  | succ fuel ih =>
    unfold rounds
    by_cases hfull : capacity ≤ st.selected.length
    · refine ⟨st, if_pos hfull, ?_⟩
      rw [List.take_append_of_le_length hfull, List.take_of_length_le hlength]
    rw [if_neg hfull, turns_succ, List.filter_append, ← List.append_assoc]
    obtain ⟨st₁, hpass, hselected, -, htail⟩ := pass_eq hdecides hreadable hkeys hst
      (by omega : st.selected.length < capacity)
    simp only [hpass]
    obtain ⟨hle, hnone⟩ := pass_progress hpass
    by_cases hprogress : st₁.waiting.length = st.waiting.length
    · -- nothing waits any more, and no turn is left
      have hempty := hnone hprogress
      rw [if_pos hprogress, turns_eq_nil (fun k hk => by rw [hempty k hk, List.tail_nil]),
        List.filter_nil, List.append_nil]
      exact ⟨st₁, rfl, hselected⟩
    · rw [if_neg hprogress]
      have hconsistent := (pass_consistent hdecides hst hpass).1
      have hbound : st₁.selected.length ≤ capacity := by
        rw [hselected]
        exact List.length_take_le _ _
      obtain ⟨st', hrounds, hst'⟩ := ih hconsistent hbound (by omega)
      refine ⟨st', hrounds, ?_⟩
      rw [hst']
      by_cases hlt : st₁.selected.length < capacity
      · rw [turns_congr (htail hlt), hselected, take_append_take]
      -- the round has used up the capacity
      have heq : st₁.selected.length = capacity := by omega
      rw [List.take_append_of_le_length heq.ge, List.take_of_length_le heq.le, hselected]
      rw [hselected, List.length_take] at heq
      exact (List.take_append_of_le_length (by omega)).symm

theorem rounds_tested (hdecides : Decides key accept verdict items) {keys : List κ} {fuel : Nat}
    (hst : Consistent key verdict items st) (hkeys : ∀ a ∈ items, key a ∈ keys)
    (hfuel : st.waiting.length < fuel)
    (h : rounds key accept capacity keys fuel st = .ok st')
    (hlength : st'.selected.length < capacity) :
    ∀ a ∈ st.waiting, ∃ accepted, verdict a = .ok accepted := by
  induction fuel generalizing st with
  | zero => omega
  | succ fuel ih =>
    unfold rounds at h
    by_cases hfull : capacity ≤ st.selected.length
    · rw [if_pos hfull] at h
      cases h
      omega
    rw [if_neg hfull] at h
    cases hpass : pass key accept capacity keys st with
    | error e =>
      simp only [hpass] at h
      cases h
    | ok st₁ =>
      simp only [hpass] at h
      obtain ⟨hle, hnone⟩ := pass_progress hpass
      obtain ⟨hconsistent, htested⟩ := pass_consistent hdecides hst hpass
      intro a ha
      by_cases hprogress : st₁.waiting.length = st.waiting.length
      · -- a waiting item would have been taken
        obtain ⟨taken, hqueue, -⟩ := hst (key a)
        have hwaiting : a ∈ queue key st.waiting (key a) := mem_queue.mpr ⟨ha, rfl⟩
        have hitem : a ∈ queue key items (key a) := by
          rw [hqueue]
          exact List.mem_append_right _ hwaiting
        rw [hnone hprogress _ (hkeys a (mem_queue.mp hitem).1)] at hwaiting
        cases hwaiting
      · rw [if_neg hprogress] at h
        rcases htested a ha with hwaiting | hverdict
        · exact ih hconsistent (by omega) h a hwaiting
        · exact hverdict

end Spec

/-! ## The order of the turns -/

/-- The key has its turn before the other one, in a round that starts after `last`. -/
def TurnBefore (last : Option κ) (k k' : κ) : Prop :=
  match last with
  | none => k < k'
  | some last => (last < k ∧ k' ≤ last) ∨ ((last < k ↔ last < k') ∧ k < k')

theorem turnBefore_asymm {last : Option κ} {k k' : κ} (h : TurnBefore last k k') :
    ¬ TurnBefore last k' k := by
  cases last with
  | none =>
    have h : k < k' := h
    exact h.not_gt
  | some last =>
    intro h'
    rcases h with ⟨h1, h2⟩ | ⟨h1, h2⟩
    · rcases h' with ⟨h3, -⟩ | ⟨h3, h4⟩
      · exact absurd h3 h2.not_gt
      · exact absurd (h3.mpr h1) h2.not_gt
    rcases h' with ⟨h3, h4⟩ | ⟨-, h4⟩
    · exact absurd (h1.mpr h3) h4.not_gt
    · exact absurd h2 h4.not_gt

/-- Either of two keys can be the first, after a suitable last one. -/
theorem exists_turnBefore {k k' : κ} (h : k ≠ k') : ∃ last, TurnBefore last k k' := by
  rcases lt_or_gt_of_ne h with hlt | hgt
  · exact ⟨none, hlt⟩
  · exact ⟨some k', Or.inl ⟨hgt, le_rfl⟩⟩

theorem mem_rotation {last : Option κ} {keys : List κ} {k : κ} :
    k ∈ rotation last keys ↔ k ∈ keys := by
  unfold rotation
  cases last with
  | none => rw [← OrdSet.mem_def, OrdSet.mem_ofList]
  | some last =>
    simp only [List.mem_append, List.mem_filter, decide_eq_true_eq, ← OrdSet.mem_def,
      OrdSet.mem_ofList]
    constructor
    · rintro (h | h)
      · exact h.1
      · exact h.1
    · intro h
      rcases lt_or_ge last k with hlt | hge
      · exact Or.inl ⟨h, hlt⟩
      · exact Or.inr ⟨h, hge⟩

theorem pairwise_rotation (last : Option κ) (keys : List κ) :
    (rotation last keys).Pairwise (TurnBefore last) := by
  have hsorted := List.sortedLT_iff_pairwise.mp (OrdSet.ofList keys).sorted
  unfold rotation
  cases last with
  | none => exact hsorted
  | some last =>
    refine List.pairwise_append.mpr ⟨?_, ?_, ?_⟩
    · refine (hsorted.filter _).imp_of_mem fun hk hk' hlt => ?_
      have hk := of_decide_eq_true (List.mem_filter.mp hk).2
      have hk' := of_decide_eq_true (List.mem_filter.mp hk').2
      exact Or.inr ⟨⟨fun _ => hk', fun _ => hk⟩, hlt⟩
    · refine (hsorted.filter _).imp_of_mem fun hk hk' hlt => ?_
      have hk := of_decide_eq_true (List.mem_filter.mp hk).2
      have hk' := of_decide_eq_true (List.mem_filter.mp hk').2
      exact Or.inr ⟨⟨fun h => absurd h hk.not_gt, fun h => absurd h hk'.not_gt⟩, hlt⟩
    · intro k hk k' hk'
      have hk := of_decide_eq_true (List.mem_filter.mp hk).2
      have hk' := of_decide_eq_true (List.mem_filter.mp hk').2
      exact Or.inl ⟨hk, hk'⟩

theorem nodup_rotation (last : Option κ) (keys : List κ) : (rotation last keys).Nodup := by
  refine (pairwise_rotation last keys).imp ?_
  rintro k k' h rfl
  exact turnBefore_asymm h h

section Order

variable {key : α → κ} {items : List α}

/-- The item has its turn before the other one: in an earlier round, or in the same round. -/
def Before (key : α → κ) (last : Option κ) (items : List α) (a b : α) : Prop :=
  ∃ i j : Nat, (queue key items (key a))[i]? = some a ∧ (queue key items (key b))[j]? = some b ∧
    (i < j ∨ (i = j ∧ TurnBefore last (key a) (key b)))

theorem index_unique (hnodup : items.Nodup) {k : κ} {a : α} {i j : Nat}
    (hi : (queue key items k)[i]? = some a) (hj : (queue key items k)[j]? = some a) : i = j := by
  obtain ⟨hi', -⟩ := List.getElem?_eq_some_iff.mp hi
  exact (List.getElem?_inj hi' (nodup_queue hnodup k)).mp (hi.trans hj.symm)

theorem exists_index {a : α} (h : a ∈ items) :
    ∃ i < items.length, (queue key items (key a))[i]? = some a := by
  obtain ⟨i, hi⟩ := List.mem_iff_getElem?.mp (mem_queue.mpr ⟨h, rfl⟩ : a ∈ queue key items (key a))
  obtain ⟨hlt, -⟩ := List.getElem?_eq_some_iff.mp hi
  exact ⟨i, hlt.trans_le (length_queue_le _), hi⟩

theorem key_of_index {k : κ} {a : α} {i : Nat} (h : (queue key items k)[i]? = some a) :
    a ∈ items ∧ key a = k :=
  mem_queue.mp (List.mem_iff_getElem?.mpr ⟨i, h⟩)

theorem before_asymm (hnodup : items.Nodup) {last : Option κ} {a b : α}
    (h : Before key last items a b) : ¬ Before key last items b a := by
  rintro ⟨j', i', hj', hi', horder'⟩
  obtain ⟨i, j, hi, hj, horder⟩ := h
  obtain rfl := index_unique hnodup hi hi'
  obtain rfl := index_unique hnodup hj hj'
  rcases horder with hlt | ⟨heq, hturn⟩
  · rcases horder' with hlt' | ⟨heq', -⟩ <;> omega
  rcases horder' with hlt' | ⟨-, hturn'⟩
  · omega
  · exact turnBefore_asymm hturn hturn'

theorem pairwise_turns (last : Option κ) (n : Nat) :
    (turns (rotation last (items.map key)) (queue key items) n).Pairwise
      (Before key last items) := by
  unfold turns
  rw [List.pairwise_flatMap]
  constructor
  · intro round _
    rw [List.pairwise_filterMap]
    refine (pairwise_rotation last _).imp fun {k k'} hturn a ha b hb => ?_
    obtain ⟨-, rfl⟩ := key_of_index ha
    obtain ⟨-, rfl⟩ := key_of_index hb
    exact ⟨round, round, ha, hb, Or.inr ⟨rfl, hturn⟩⟩
  · refine List.pairwise_lt_range.imp fun {round round'} hlt a ha b hb => ?_
    obtain ⟨k, -, ha⟩ := List.mem_filterMap.mp ha
    obtain ⟨k', -, hb⟩ := List.mem_filterMap.mp hb
    obtain ⟨-, rfl⟩ := key_of_index ha
    obtain ⟨-, rfl⟩ := key_of_index hb
    exact ⟨round, round', ha, hb, Or.inl hlt⟩

theorem mem_turns_iff {last : Option κ} {n : Nat} (hn : items.length ≤ n) {a : α} :
    a ∈ turns (rotation last (items.map key)) (queue key items) n ↔ a ∈ items := by
  rw [mem_turns]
  constructor
  · rintro ⟨round, -, k, -, hget⟩
    exact (key_of_index hget).1
  · intro ha
    obtain ⟨i, hi, hget⟩ := @exists_index κ α _ key items a ha
    exact ⟨i, by omega, key a, mem_rotation.mpr (List.mem_map_of_mem ha), hget⟩

theorem nodup_turns (hnodup : items.Nodup) (last : Option κ) (n : Nat) :
    (turns (rotation last (items.map key)) (queue key items) n).Nodup := by
  refine (pairwise_turns last n).imp ?_
  rintro a b h rfl
  exact before_asymm hnodup h h

theorem perm_turns (hnodup : items.Nodup) (last : Option κ) {n : Nat} (hn : items.length ≤ n) :
    (turns (rotation last (items.map key)) (queue key items) n).Perm items :=
  (List.perm_ext_iff_of_nodup (nodup_turns hnodup last n) hnodup).mpr fun _ => mem_turns_iff hn

/-! ## Dropping before the turns -/

/-- Among the items of different keys that fit, an earlier round stays an earlier round when the
other items are dropped from the queues. -/
def RoundsKept (key : α → κ) (items : List α) (fits : α → Bool) : Prop :=
  ∀ (a b : α) (i j i' j' : Nat), key a ≠ key b →
    (queue key items (key a))[i]? = some a → (queue key items (key b))[j]? = some b →
    (queue key (items.filter fits) (key a))[i']? = some a →
    (queue key (items.filter fits) (key b))[j']? = some b → (i < j ↔ i' < j')

omit [LinearOrder κ] in
/-- Two orders of one list. -/
theorem pairwise_both {R S : α → α → Prop} {l : List α} (hR : l.Pairwise R) (hS : l.Pairwise S)
    {a b : α} (ha : a ∈ l) (hb : b ∈ l) (hne : a ≠ b) :
    (R a b ∧ S a b) ∨ (R b a ∧ S b a) := by
  obtain ⟨i, hi, rfl⟩ := List.mem_iff_getElem.mp ha
  obtain ⟨j, hj, rfl⟩ := List.mem_iff_getElem.mp hb
  have hboth := List.pairwise_iff_getElem.mp (hR.and hS)
  rcases Nat.lt_trichotomy i j with hlt | rfl | hgt
  · exact Or.inl (hboth i j hi hj hlt)
  · exact absurd rfl hne
  · exact Or.inr (hboth j i hj hi hgt)

omit [LinearOrder κ] in
/-- Within one queue, dropping items keeps the order. -/
theorem index_filter_mono {l : List α} (hnodup : l.Nodup) (p : α → Bool) {a b : α} {i j i' j' : Nat}
    (hi : l[i]? = some a) (hj : l[j]? = some b) (hi' : (l.filter p)[i']? = some a)
    (hj' : (l.filter p)[j']? = some b) (hlt : i < j) : i' < j' := by
  -- the places of the items in the whole queue are in order, hence so they are in a part of it
  have hordered : l.Pairwise (fun x y => ∀ i j : Nat, l[i]? = some x → l[j]? = some y → i < j) := by
    rw [List.pairwise_iff_getElem]
    intro i j hi hj hlt i₁ j₁ hi₁ hj₁
    have hi₂ := (List.getElem?_inj hi hnodup).mp ((List.getElem?_eq_getElem hi).trans hi₁.symm)
    have hj₂ := (List.getElem?_inj hj hnodup).mp ((List.getElem?_eq_getElem hj).trans hj₁.symm)
    omega
  have hpart := List.pairwise_iff_getElem.mp (hordered.filter p)
  obtain ⟨hi₁, ha⟩ := List.getElem?_eq_some_iff.mp hi'
  obtain ⟨hj₁, hb⟩ := List.getElem?_eq_some_iff.mp hj'
  rcases Nat.lt_trichotomy i' j' with hlt' | rfl | hgt
  · exact hlt'
  · obtain ⟨hil, -⟩ := List.getElem?_eq_some_iff.mp hi
    have hab : a = b := ha.symm.trans hb
    have hij := (List.getElem?_inj hil hnodup).mp (hi.trans (hab ▸ hj.symm))
    omega
  · have hback := hpart j' i' hj₁ hi₁ hgt j i (by rw [hb]; exact hj) (by rw [ha]; exact hi)
    omega

/-- **A dropped item makes no difference, whatever key was last, exactly when the rounds of the
others are kept.** -/
theorem turns_filter_eq_iff (hnodup : items.Nodup) (fits : α → Bool) {n m : Nat}
    (hn : items.length ≤ n) (hm : (items.filter fits).length ≤ m) :
    (∀ last, (turns (rotation last (items.map key)) (queue key items) n).filter fits
        = turns (rotation last ((items.filter fits).map key)) (queue key (items.filter fits)) m) ↔
      RoundsKept key items fits := by
  have hnodup' : (items.filter fits).Nodup := hnodup.filter _
  have hmem : ∀ last a,
      a ∈ (turns (rotation last (items.map key)) (queue key items) n).filter fits ↔
      a ∈ items.filter fits := by
    intro last a
    rw [List.mem_filter, mem_turns_iff hn, List.mem_filter]
  have horder : ∀ last, ((turns (rotation last (items.map key)) (queue key items) n).filter
      fits).Pairwise (Before key last items) := fun last => (pairwise_turns last n).filter _
  constructor
  · intro hall a b i j i' j' hne hi hj hi' hj'
    have ha := (key_of_index hi').1
    have hb := (key_of_index hj').1
    have hab : a ≠ b := fun heq => hne (congrArg key heq)
    -- a rotation in which `b` is first, if both are in one round
    obtain ⟨last, hlast⟩ := exists_turnBefore (Ne.symm hne)
    have horder' := @pairwise_turns κ α _ key (items.filter fits) last m
    rw [← hall last] at horder'
    rcases pairwise_both (horder last) horder' ((hmem last a).mpr ha)
      ((hmem last b).mpr hb) hab with
      ⟨⟨i₁, j₁, hi₁, hj₁, h⟩, i₂, j₂, hi₂, hj₂, h'⟩ | ⟨⟨j₁, i₁, hj₁, hi₁, h⟩, j₂, i₂, hj₂, hi₂, h'⟩
    · obtain rfl := index_unique hnodup hi hi₁
      obtain rfl := index_unique hnodup hj hj₁
      obtain rfl := index_unique hnodup' hi' hi₂
      obtain rfl := index_unique hnodup' hj' hj₂
      have hnot := turnBefore_asymm hlast
      exact ⟨fun _ => h'.resolve_right fun hturn => hnot hturn.2,
        fun _ => h.resolve_right fun hturn => hnot hturn.2⟩
    · obtain rfl := index_unique hnodup hi hi₁
      obtain rfl := index_unique hnodup hj hj₁
      obtain rfl := index_unique hnodup' hi' hi₂
      obtain rfl := index_unique hnodup' hj' hj₂
      omega
  · intro hkept last
    apply List.Perm.eq_of_pairwise _ _ (pairwise_turns last m)
    · rw [List.perm_ext_iff_of_nodup ((nodup_turns hnodup last n).filter _)
        (nodup_turns hnodup' last m)]
      intro a
      rw [hmem, mem_turns_iff hm]
    · intro a b _ _ h h'
      exact absurd h' (before_asymm hnodup' h)
    · refine (horder last).imp_of_mem fun {a b} ha hb h => ?_
      obtain ⟨i, j, hi, hj, h⟩ := h
      obtain ⟨i', -, hi'⟩ := @exists_index κ α _ key _ a ((hmem last a).mp ha)
      obtain ⟨j', -, hj'⟩ := @exists_index κ α _ key _ b ((hmem last b).mp hb)
      refine ⟨i', j', hi', hj', ?_⟩
      by_cases hkey : key a = key b
      · -- one queue: the items cannot be in the same round
        rcases h with hlt | ⟨-, hturn⟩
        · rw [queue_filter] at hi' hj'
          rw [hkey] at hi hi'
          exact Or.inl (index_filter_mono (nodup_queue hnodup _) fits hi hj hi' hj' hlt)
        · rw [hkey] at hturn
          exact absurd hturn (turnBefore_asymm hturn)
      · rcases h with hlt | ⟨rfl, hturn⟩
        · exact Or.inl ((hkept a b i j i' j' hkey hi hj hi' hj').mp hlt)
        have h1 := hkept a b i i i' j' hkey hi hj hi' hj'
        have h2 := hkept b a i i j' i' (Ne.symm hkey) hj hi hj' hi'
        exact Or.inr ⟨by omega, hturn⟩

end Order

end Turns
