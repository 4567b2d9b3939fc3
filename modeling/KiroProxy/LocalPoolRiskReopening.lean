import KiroProxy.LocalPoolRiskCircuit

/-!
# Late failures of the local pool

The opening empties the map of failures, but a failure that is counted while the circuit is
half-open opens it again whatever the map holds, also when no probe has been handed out. So a
failure of a request from before the opening counts as a failed probe, until a success has closed
the circuit or the half-open period is over.
-/

namespace KiroProxy
open Transducer

namespace LocalPoolRiskCircuit

def Outcome.isOpening : Outcome → Bool
  | .failed opened _ => opened
  | _ => false

def Call.counted : Call → List ℕ
  | .failure _ credentialId _ true _ => [credentialId]
  | _ => []

/-- The call finds the open period over. A success does not look at the time. -/
def Call.Notices (openEnd : ℕ) : Call → Prop
  | .success _ => False
  | call => openEnd ≤ call.now

/-- A success comes after a call that has found the open period over. -/
def ClosedBySuccess (openEnd : ℕ) (calls : List Call) : Prop :=
  ∃ noticing now, [noticing, .success now].Sublist calls ∧ noticing.Notices openEnd

inductive Phase (config : Config) (openEnd clock : ℕ) (calls : List Call)
    (circuit : LocalPoolRiskCircuit) : Prop
  | isOpen (hopen : circuit.IsOpen openEnd) (hnotices : ∀ call ∈ calls, ¬ call.Notices openEnd)
  | halfOpen (left : ℕ) (hopen : circuit.openUntil = none)
      (hhalf : circuit.halfOpen = some (left, periodEnd config openEnd))
      (hnotices : ∃ call ∈ calls, call.Notices openEnd)
      (hclosed : ¬ ClosedBySuccess openEnd calls)
  | closed (hopen : circuit.openUntil = none) (hhalf : circuit.halfOpen = none)
      (hwhy : periodEnd config openEnd ≤ clock ∨ ClosedBySuccess openEnd calls)

variable {config : Config} {circuit : LocalPoolRiskCircuit} {openEnd clock : ℕ}
  {calls : List Call}

theorem ClosedBySuccess.append (h : ClosedBySuccess openEnd calls) (call : Call) :
    ClosedBySuccess openEnd (calls ++ [call]) := by
  obtain ⟨noticing, now, hsublist, hnotices⟩ := h
  exact ⟨noticing, now, hsublist.trans (List.sublist_append_left _ _), hnotices⟩

theorem ClosedBySuccess.exists_notices (h : ClosedBySuccess openEnd calls) :
    ∃ call ∈ calls, call.Notices openEnd := by
  obtain ⟨noticing, now, hsublist, hnotices⟩ := h
  exact ⟨noticing, hsublist.subset List.mem_cons_self, hnotices⟩

theorem closedBySuccess_success (h : ∃ call ∈ calls, call.Notices openEnd) (now : ℕ) :
    ClosedBySuccess openEnd (calls ++ [.success now]) := by
  obtain ⟨noticing, hmem, hnotices⟩ := h
  exact ⟨noticing, now, (List.singleton_sublist.mpr hmem).append (.refl _), hnotices⟩

variable {call : Call} {now : ℕ}

/-- Only a success closes. -/
theorem closedBySuccess_append_iff (hcall : ∀ now, call ≠ .success now) :
    ClosedBySuccess openEnd (calls ++ [call]) ↔ ClosedBySuccess openEnd calls := by
  refine ⟨?_, fun h => h.append call⟩
  rintro ⟨noticing, now, hsublist, hnotices⟩
  obtain ⟨first, last, hpair, hfirst, hlast⟩ := List.sublist_append_iff.mp hsublist
  rcases List.eq_nil_or_concat last with rfl | ⟨init, final, rfl⟩
  · rw [List.append_nil] at hpair
    exact ⟨noticing, now, hpair ▸ hfirst, hnotices⟩
  · have hfinal : final = .success now := by
      have := congrArg List.getLast? hpair
      simpa using this.symm
    have hmem : final ∈ [call] := hlast.subset (by simp)
    exact absurd ((List.mem_singleton.mp hmem).symm.trans hfinal) (hcall now)

theorem Phase.prune (h : Phase config openEnd clock calls circuit)
    (hcall : ∀ now, call ≠ .success now) (hle : clock ≤ call.now) :
    Phase config openEnd call.now (calls ++ [call]) (circuit.prune config call.now) := by
  have hnotices : call.Notices openEnd ↔ openEnd ≤ call.now := by
    cases call with
    | success now => exact absurd rfl (hcall now)
    | admitRequest now => exact Iff.rfl
    | failure now credentialId reason everSucceeded dispatchableNow => exact Iff.rfl
    | snapshot now => exact Iff.rfl
  have hclosed := @closedBySuccess_append_iff openEnd calls call hcall
  cases h with
  | isOpen hopen hbefore =>
    have hnone : ¬ ClosedBySuccess openEnd calls := fun h =>
      (h.exists_notices).elim fun earlier hearlier => hbefore earlier hearlier.1 hearlier.2
    rcases Nat.lt_or_ge call.now openEnd with hlt | hge
    · rw [prune_of_open hopen.1 hopen.2 hlt]
      refine .isOpen hopen (List.forall_mem_append.mpr ⟨hbefore, ?_⟩)
      exact List.forall_mem_singleton.mpr fun h => absurd (hnotices.mp h) (Nat.not_le.mpr hlt)
    · rw [prune_of_opened hopen.1 hge]
      split_ifs with hlt
      · exact .halfOpen config.probes rfl rfl
          ⟨call, List.mem_append_right _ List.mem_cons_self, hnotices.mpr hge⟩
          fun h => hnone (hclosed.mp h)
      · exact .closed rfl rfl (.inl (Nat.le_of_not_lt hlt))
  | halfOpen left hopen hhalf hbefore hnone =>
    rw [prune_of_halfOpen hopen hhalf]
    split_ifs with hlt
    · obtain ⟨earlier, hmem, hearlier⟩ := hbefore
      exact .halfOpen left hopen hhalf ⟨earlier, List.mem_append_left _ hmem, hearlier⟩
        fun h => hnone (hclosed.mp h)
    · exact .closed hopen rfl (.inl (Nat.le_of_not_lt hlt))
  | closed hopen hhalf hwhy =>
    rw [prune_of_closed hopen hhalf]
    exact .closed hopen hhalf (hwhy.imp hle.trans' fun h => h.append call)

/-- A call that does not open the circuit and is no success leaves the periods as they are at its
time, except that a request may take a probe. -/
theorem step_periods (henabled : config.localPoolCircuitEnabled = true)
    (circuit : LocalPoolRiskCircuit) (hcall : ∀ now, call ≠ .success now)
    (hopens : (circuit.step config call).2.isOpening = false) :
    (circuit.step config call).1.openUntil = (circuit.prune config call.now).openUntil ∧
      ∃ take : ℕ → ℕ, (circuit.step config call).1.halfOpen =
        (circuit.prune config call.now).halfOpen.map fun halfOpen =>
          (take halfOpen.1, halfOpen.2) := by
  have hsame (periods : Option (ℕ × ℕ)) : periods = periods.map fun halfOpen =>
      (id halfOpen.1, halfOpen.2) := Option.map_id'.symm
  cases call with
  | admitRequest now =>
    rw [step_admitRequest henabled]
    cases ((circuit.prune config now).snapshotLocked now).retryAfter with
    | none => exact ⟨rfl, (· - 1), rfl⟩
    | some retryAfter => exact ⟨rfl, id, hsame _⟩
  | success now => exact absurd rfl (hcall now)
  | failure now credentialId reason everSucceeded dispatchableNow =>
    cases everSucceeded with
    | false =>
      rw [step_failure_never henabled]
      exact ⟨rfl, id, hsame _⟩
    | true =>
      obtain ⟨seen, heq⟩ := step_failure henabled circuit now credentialId reason dispatchableNow
      rw [heq] at hopens ⊢
      split_ifs at hopens ⊢
      · cases hopens
      · exact ⟨rfl, id, hsame _⟩
  | snapshot now =>
    rw [step_snapshot henabled]
    exact ⟨rfl, id, hsame _⟩

theorem Phase.of_periods {circuit' : LocalPoolRiskCircuit} {take : ℕ → ℕ}
    (h : Phase config openEnd clock calls circuit) (hopen : circuit'.openUntil = circuit.openUntil)
    (hhalf : circuit'.halfOpen = circuit.halfOpen.map fun halfOpen =>
      (take halfOpen.1, halfOpen.2)) : Phase config openEnd clock calls circuit' := by
  cases h with
  | isOpen hcircuit hnotices =>
    rw [hcircuit.2] at hhalf
    exact .isOpen ⟨hopen.trans hcircuit.1, hhalf⟩ hnotices
  | halfOpen left hnone hleft hnotices hclosed =>
    rw [hleft] at hhalf
    exact .halfOpen (take left) (hopen.trans hnone) hhalf hnotices hclosed
  | closed hnone hleft hwhy =>
    rw [hleft] at hhalf
    exact .closed (hopen.trans hnone) hhalf hwhy

theorem Phase.success (h : Phase config openEnd clock calls circuit) (hle : clock ≤ now) :
    Phase config openEnd now (calls ++ [.success now]) circuit.recordSuccess := by
  unfold recordSuccess
  cases h with
  | isOpen hopen hnotices =>
    rw [hopen.2]
    refine .isOpen hopen (List.forall_mem_append.mpr ⟨hnotices, ?_⟩)
    exact List.forall_mem_singleton.mpr id
  | halfOpen left hopen hhalf hnotices hclosed =>
    rw [hhalf]
    exact .closed hopen rfl (.inr (closedBySuccess_success hnotices now))
  | closed hopen hhalf hwhy =>
    rw [hhalf]
    exact .closed hopen hhalf (hwhy.imp hle.trans' fun h => h.append _)

theorem Phase.step (h : Phase config openEnd clock calls circuit)
    (henabled : config.localPoolCircuitEnabled = true) (hle : clock ≤ call.now)
    (hopens : (circuit.step config call).2.isOpening = false) :
    Phase config openEnd call.now (calls ++ [call]) (circuit.step config call).1 := by
  by_cases hsuccess : ∃ now, call = .success now
  · obtain ⟨now, rfl⟩ := hsuccess
    exact h.success hle
  · have hcall : ∀ now, call ≠ .success now := fun now heq => hsuccess ⟨now, heq⟩
    obtain ⟨hopen, take, hhalf⟩ := step_periods henabled circuit hcall hopens
    exact (h.prune hcall hle).of_periods hopen hhalf

variable {s : System}

theorem next_failed (s : System) (hopens : (s.circuit.step config call).2.isOpening = false) :
    (s.next config call).1.failed.map Prod.fst = s.failed.map Prod.fst ++ call.counted := by
  unfold System.next
  dsimp only
  generalize (s.circuit.step config call).2 = outcome at hopens ⊢
  split
  · cases hopens
  · rw [List.map_append]
    rfl
  · rename_i hcounted _
    have hnone : call.counted = [] := by
      unfold Call.counted
      split
      · exact (hcounted _ _ _ _ rfl).elim
      · rfl
    rw [hnone, List.append_nil]

theorem Phase.run (h : Phase config openEnd clock calls s.circuit)
    (henabled : config.localPoolCircuitEnabled = true) {since : List Call} (hclock : clock ≤ now)
    (hfrom : ∀ call ∈ since, clock ≤ call.now) (hnow : ∀ call ∈ since, call.now ≤ now)
    (htimes : (since.map Call.now).Pairwise (· ≤ ·))
    (hopens : ∀ outcome ∈ (Transducer.run (System.next config) s since).2,
      outcome.isOpening = false) :
    (∃ clock' ≤ now, Phase config openEnd clock' (calls ++ since)
      (Transducer.run (System.next config) s since).1.circuit) ∧
    (Transducer.run (System.next config) s since).1.failed.map Prod.fst =
      s.failed.map Prod.fst ++ since.flatMap Call.counted := by
  induction since generalizing s clock calls with
  | nil =>
    rw [List.append_nil, List.flatMap_nil, List.append_nil]
    exact ⟨⟨clock, hclock, h⟩, rfl⟩
  | cons call since ih =>
    rw [run_cons] at hopens ⊢
    rw [next_snd, List.forall_mem_append, List.forall_mem_singleton] at hopens
    rw [List.map_cons, List.pairwise_cons] at htimes
    obtain ⟨hlater, htimes⟩ := htimes
    rw [List.forall_mem_cons] at hfrom hnow
    have hstep := h.step henabled hfrom.1 hopens.1
    rw [← next_fst_circuit] at hstep
    obtain ⟨⟨clock', hle, hphase⟩, hfailed⟩ := ih hstep hnow.1
      (fun later hmem => hlater later.now (List.mem_map_of_mem hmem)) hnow.2 htimes hopens.2
    rw [List.append_assoc] at hphase
    refine ⟨⟨clock', hle, hphase⟩, ?_⟩
    rw [hfailed, next_failed s hopens.1, List.append_assoc, List.flatMap_cons]

/-- A failure after the open period finds the circuit half-open unless it has been closed. -/
theorem Phase.isClosed_iff (h : Phase config openEnd clock calls circuit) (hclock : clock ≤ now)
    (hover : openEnd ≤ now) :
    circuit.IsClosed config now ↔
      periodEnd config openEnd ≤ now ∨ ClosedBySuccess openEnd calls := by
  unfold IsClosed
  cases h with
  | isOpen hopen hbefore =>
    have hnone : ¬ ClosedBySuccess openEnd calls := fun h =>
      h.exists_notices.elim fun earlier hearlier => hbefore earlier hearlier.1 hearlier.2
    rw [prune_of_opened hopen.1 hover, or_iff_left hnone]
    split_ifs with hlt
    · exact iff_of_false (by simp) (Nat.not_le.mpr hlt)
    · exact iff_of_true ⟨rfl, rfl⟩ (Nat.le_of_not_lt hlt)
  | halfOpen left hopen hhalf hbefore hnone =>
    rw [prune_of_halfOpen hopen hhalf, or_iff_left hnone]
    split_ifs with hlt
    · exact iff_of_false (by simp [hhalf]) (Nat.not_le.mpr hlt)
    · exact iff_of_true ⟨hopen, rfl⟩ (Nat.le_of_not_lt hlt)
  | closed hopen hhalf hwhy =>
    rw [prune_of_closed hopen hhalf]
    exact iff_of_true ⟨hopen, hhalf⟩ (hwhy.imp_left hclock.trans')

theorem card_distinctFailed_le (config : Config) (now : ℕ) (failed : List (ℕ × ℕ)) :
    (distinctFailed config now failed).card ≤ (failed.map Prod.fst).toFinset.card := by
  refine Finset.card_le_card fun credentialId hmem => ?_
  rw [distinctFailed, List.mem_toFinset] at hmem
  rw [List.mem_toFinset]
  exact (List.filter_sublist.map Prod.fst).subset hmem

theorem Opens.next_failed (h : Opens config s.circuit call)
    (henabled : config.localPoolCircuitEnabled = true) : (s.next config call).1.failed = [] := by
  obtain ⟨seen, hseen⟩ := h
  obtain ⟨now, credentialId, reason, dispatchableNow, rfl, -, -⟩ := step_opened henabled hseen
  unfold System.next
  dsimp only
  rw [hseen]

theorem Phase.prune_openUntil (h : Phase config openEnd clock calls circuit) (hover : openEnd ≤ now) :
    (circuit.prune config now).openUntil = none := by
  cases h with
  | isOpen hopen hbefore =>
    rw [prune_of_opened hopen.1 hover]
    split_ifs
    · rfl
    · rfl
  | halfOpen left hopen hhalf hbefore hnone =>
    rw [prune_of_halfOpen hopen hhalf]
    split_ifs
    · exact hopen
    · exact hopen
  | closed hopen hhalf hwhy =>
    rw [prune_of_closed hopen hhalf]
    exact hopen

theorem opens_of_halfOpen (henabled : config.localPoolCircuitEnabled = true)
    (hopen : (circuit.prune config now).openUntil = none) (hclosed : ¬ circuit.IsClosed config now)
    (credentialId : ℕ) (reason : CredentialRiskControlReason) (dispatchableNow : ℕ) :
    Opens config circuit (.failure now credentialId reason true dispatchableNow) := by
  have hhalf : (circuit.prune config now).halfOpen.isSome = true := by
    rw [Option.isSome_iff_ne_none]
    exact fun hnone => hclosed ⟨hopen, hnone⟩
  obtain ⟨seen, heq⟩ := step_failure henabled circuit now credentialId reason dispatchableNow
  have hopens : ((circuit.prune config now).insertFailure now credentialId).opens config now
      dispatchableNow = true := by
    unfold opens insertFailure
    dsimp only
    rw [hopen, hhalf]
    rfl
  rw [if_pos hopens] at heq
  exact ⟨seen, congrArg Prod.snd heq⟩

/-- Until enough credentials have failed since the opening, a counted failure after the open
period leaves the circuit closed exactly when the half-open period is over or a success has closed
the circuit. It makes no difference whether a request has been admitted. -/
theorem not_opens_iff (henabled : config.localPoolCircuitEnabled = true) {earlier since : List Call}
    {opener : Call} {now credentialId dispatchableNow : ℕ} {reason : CredentialRiskControlReason}
    (htimes : ((earlier ++ opener :: since ++
      [Call.failure now credentialId reason true dispatchableNow]).map Call.now).Pairwise (· ≤ ·))
    (hopener : Opens config (after config earlier).circuit opener)
    (hsince : ∀ outcome ∈ outcomes config (earlier ++ [opener]) since, outcome.isOpening = false)
    (hover : periodEnd config opener.now ≤ now)
    (hfew : (since.flatMap Call.counted ++ [credentialId]).toFinset.card <
      config.requiredDistinct) :
    ¬ Opens config (after config (earlier ++ opener :: since)).circuit
        (.failure now credentialId reason true dispatchableNow) ↔
      periodEnd config (periodEnd config opener.now) ≤ now ∨
        ClosedBySuccess (periodEnd config opener.now) since := by
  obtain ⟨clock, hclock, hinv⟩ := (Inv.new config).before henabled (fun _ _ => Nat.zero_le _) htimes
  change Inv config clock (after config (earlier ++ opener :: since)) at hinv
  have hsplit : after config (earlier ++ opener :: since) =
      (run (System.next config) (after config (earlier ++ [opener])) since).1 := by
    rw [List.append_cons, after_append]
  have hphase : Phase config (periodEnd config opener.now) opener.now []
      (after config (earlier ++ [opener])).circuit := by
    rw [after_singleton_circuit]
    exact .isOpen (hopener.isOpen henabled) nofun
  have hnone : (after config (earlier ++ [opener])).failed = [] := by
    rw [after_append, run_singleton]
    exact hopener.next_failed henabled
  rw [List.map_append, List.pairwise_append, List.map_append, List.pairwise_append, List.map_cons,
    List.pairwise_cons] at htimes
  obtain ⟨⟨-, ⟨hfrom, hordered⟩, -⟩, -, hbefore⟩ := htimes
  have hnow : ∀ call ∈ opener :: since, call.now ≤ now := fun call hmem =>
    hbefore call.now (List.mem_append_right _ (List.mem_map_of_mem hmem)) now List.mem_cons_self
  obtain ⟨⟨clock', hle, hafter⟩, hfailed⟩ := hphase.run henabled (hnow opener List.mem_cons_self)
    (fun call hmem => hfrom call.now (List.mem_map_of_mem hmem))
    (fun call hmem => hnow call (List.mem_cons_of_mem _ hmem)) hordered hsince
  rw [← hsplit, hnone] at hfailed
  rw [← hsplit] at hafter
  rw [List.nil_append] at hafter
  rw [← hafter.isClosed_iff hle hover]
  constructor
  · intro hnot
    by_contra hclosed
    exact hnot (opens_of_halfOpen henabled (hafter.prune_openUntil hover) hclosed _ _ _)
  · intro hclosed hopens
    obtain ⟨_, _, _, _, hcall, hrequired, -⟩ :=
      hinv.opens_of_closed henabled hclock hclosed hopens
    cases hcall
    have hcard := card_distinctFailed_le config now
      ((after config (earlier ++ opener :: since)).failed ++ [(credentialId, now)])
    rw [List.map_append, hfailed] at hcard
    exact absurd (hrequired.trans hcard) (Nat.not_le.mpr hfew)

/-- A success has closed the circuit before the late failure. -/
theorem not_opens_iff_success :
    ¬ Opens twoInAMinute (after twoInAMinute ([.failure 0 1 .accountLocked true 1] ++
        .failure 1 2 .accountLocked true 0 ::
          [.admitRequest (seconds 62), .success (seconds 63)])).circuit
        (.failure (seconds 64) 3 .accountLocked true 1) ↔
      periodEnd twoInAMinute (periodEnd twoInAMinute 1) ≤ seconds 64 ∨
        ClosedBySuccess (periodEnd twoInAMinute 1)
          [.admitRequest (seconds 62), .success (seconds 63)] :=
  @not_opens_iff twoInAMinute rfl [.failure 0 1 .accountLocked true 1] _
    (.failure 1 2 .accountLocked true 0) _ _ _ _ (by decide) ⟨_, rfl⟩ (by decide) (by decide)
    (by decide)

/-- The failure of one request from before the opening, which no request after it explains. -/
theorem opens_on_late_failure :
    Opens twoInAMinute (after twoInAMinute [.failure 0 1 .accountLocked true 1]).circuit
        (.failure 1 2 .accountLocked true 0) ∧
      periodEnd twoInAMinute 1 ≤ seconds 62 ∧ 2 ≤ twoInAMinute.requiredDistinct ∧
      Opens twoInAMinute (after twoInAMinute ([.failure 0 1 .accountLocked true 1] ++
        [.failure 1 2 .accountLocked true 0])).circuit
        (.failure (seconds 62) 3 .accountLocked true 1) :=
  ⟨⟨_, rfl⟩, by decide, by decide, ⟨_, rfl⟩⟩

end LocalPoolRiskCircuit

end KiroProxy
