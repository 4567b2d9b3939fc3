import KiroProxy.Converter.Conversation

/-!
# Tool-use and tool-result pairing

Three passes over a history: results that do not answer the turn before them are
dropped, tool uses without a result are collected by id, and uses with a collected id
are removed. Answers are positional while the collected ids are one set for the whole
history, so the passes pair every turn exactly when no id is both answered in one turn
and unanswered in another.
-/

namespace KiroProxy.Converter

/-- Keeps the first result of each valid id. -/
def retainResults (validIds seen : Finset String) :
    List ToolResult → ProxyWarnings → List ToolResult × ProxyWarnings
  | [], warnings => ([], warnings)
  | result :: results, warnings =>
    if result.toolUseId ∉ validIds then
      retainResults validIds seen results
        { warnings with orphanToolResults := saturatingAdd warnings.orphanToolResults 1 }
    else if result.toolUseId ∈ seen then
      retainResults validIds seen results
        { warnings with duplicateToolResults := saturatingAdd warnings.duplicateToolResults 1 }
    else
      let (kept, warnings) :=
        retainResults validIds (insert result.toolUseId seen) results warnings
      (result :: kept, warnings)

def sanitizeTurn (validIds : Finset String) : Message → ProxyWarnings → Message × ProxyWarnings
  | .assistant message, warnings => (.assistant message, warnings)
  | .user message, warnings =>
    if message.toolResults = [] then (.user message, warnings)
    else
      let (kept, warnings) := retainResults validIds ∅ message.toolResults warnings
      let content :=
        if kept = [] ∧ isBlank message.content then emptyUserContentPlaceholder else message.content
      (.user { content, toolResults := kept }, warnings)

def sanitizeFrom (validIds : Finset String) :
    List Message → ProxyWarnings → List Message × ProxyWarnings
  | [], warnings => ([], warnings)
  | message :: history, warnings =>
    let (message', warnings) := sanitizeTurn validIds message warnings
    let (history', warnings) := sanitizeFrom message.toolUseIds.toFinset history warnings
    (message' :: history', warnings)

def sanitizeHistoryToolResults (history : List Message) (warnings : ProxyWarnings) :
    List Message × ProxyWarnings :=
  sanitizeFrom ∅ history warnings

structure PairingScan where
  allToolUseIds : Finset String
  historyToolResultIds : Finset String
  unpairedToolUseIds : Finset String
  pendingAssistantToolUseIds : Option (List String)

namespace PairingScan

def start : PairingScan := ⟨∅, ∅, ∅, none⟩

def step (scan : PairingScan) : Message → PairingScan
  | .assistant message =>
    let unpaired := scan.unpairedToolUseIds ∪ (scan.pendingAssistantToolUseIds.getD []).toFinset
    match message.toolUses with
    | none => { scan with unpairedToolUseIds := unpaired, pendingAssistantToolUseIds := none }
    | some toolUses =>
      let ids := toolUses.map ToolUseEntry.toolUseId
      { scan with
        allToolUseIds := scan.allToolUseIds ∪ ids.toFinset
        unpairedToolUseIds := unpaired
        pendingAssistantToolUseIds := if ids = [] then none else some ids }
  | .user message =>
    let pairedIds := (message.toolResults.map ToolResult.toolUseId).toFinset
    { scan with
      historyToolResultIds := scan.historyToolResultIds ∪ pairedIds
      unpairedToolUseIds := scan.unpairedToolUseIds ∪
        ((scan.pendingAssistantToolUseIds.getD []).filter (· ∉ pairedIds)).toFinset
      pendingAssistantToolUseIds := none }

end PairingScan

structure CurrentScan where
  filteredResults : List ToolResult
  seenCurrentResults : Finset String
  unpairedToolUseIds : Finset String
  currentPairedToolUseIds : Finset String
  warnings : ProxyWarnings

/-- One current result. The two orphan branches of the source differ in their log line. -/
def CurrentScan.step (currentToolUseIds : Finset String) (scan : CurrentScan)
    (result : ToolResult) : CurrentScan :=
  if result.toolUseId ∈ currentToolUseIds ∧ result.toolUseId ∉ scan.seenCurrentResults then
    { scan with
      filteredResults := scan.filteredResults ++ [result]
      seenCurrentResults := insert result.toolUseId scan.seenCurrentResults
      unpairedToolUseIds := scan.unpairedToolUseIds.erase result.toolUseId
      currentPairedToolUseIds := insert result.toolUseId scan.currentPairedToolUseIds }
  else if result.toolUseId ∈ currentToolUseIds then
    { scan with warnings := { scan.warnings with
        duplicateToolResults := saturatingAdd scan.warnings.duplicateToolResults 1 } }
  else
    { scan with warnings := { scan.warnings with
        orphanToolResults := saturatingAdd scan.warnings.orphanToolResults 1 } }

def validateToolPairing (history : List Message) (toolResults : List ToolResult)
    (warnings : ProxyWarnings) : List ToolResult × Finset String × ProxyWarnings :=
  let scan := history.foldl PairingScan.step PairingScan.start
  let currentToolUseIds := (scan.pendingAssistantToolUseIds.getD []).toFinset
  let lastAssistantUnpairedCandidates := currentToolUseIds
  let current := toolResults.foldl (CurrentScan.step currentToolUseIds)
    ⟨[], ∅, scan.unpairedToolUseIds ∪ currentToolUseIds, ∅, warnings⟩
  let unpaired := (current.unpairedToolUseIds \ current.currentPairedToolUseIds) ∪
    (lastAssistantUnpairedCandidates \ current.currentPairedToolUseIds)
  (current.filteredResults, unpaired, { current.warnings with
    orphanToolUses := saturatingAdd current.warnings.orphanToolUses unpaired.card })

def removeFromTurn (orphanedIds : Finset String) : Message → Message
  | .user message => .user message
  | .assistant message =>
    match message.toolUses with
    | none => .assistant message
    | some toolUses =>
      let kept := toolUses.filter (·.toolUseId ∉ orphanedIds)
      .assistant { message with toolUses := if kept = [] then none else some kept }

def removeOrphanedToolUses (history : List Message) (orphanedIds : Finset String) : List Message :=
  if orphanedIds = ∅ then history else history.map (removeFromTurn orphanedIds)

/-- The three passes as the compatible-mode conversion runs them. -/
def repairToolPairing (history : List Message) (toolResults : List ToolResult)
    (warnings : ProxyWarnings) : List Message × List ToolResult × ProxyWarnings :=
  let (history, warnings) := sanitizeHistoryToolResults history warnings
  let (validatedToolResults, orphanedToolUseIds, warnings) :=
    validateToolPairing history toolResults warnings
  (removeOrphanedToolUses history orphanedToolUseIds, validatedToolResults, warnings)

/-- Ids of the results that follow a turn: those of the next turn, or the current ones. -/
def answers (current : List String) : List Message → List String
  | [] => current
  | message :: _ => message.toolResultIds

/-- The history after a turn with tool uses `calls`, up to the current results: every
result answers the turn before it, once, and every tool use is answered by the next turn. -/
def PairedFrom (calls current : List String) : List Message → Prop
  | [] => (∀ x ∈ current, x ∈ calls) ∧ current.Nodup
  | message :: history =>
    ((∀ x ∈ message.toolResultIds, x ∈ calls) ∧ message.toolResultIds.Nodup) ∧
    (∀ x ∈ message.toolUseIds, x ∈ answers current history) ∧
    PairedFrom message.toolUseIds current history

instance decidablePairedFrom (calls current : List String) :
    (history : List Message) → Decidable (PairedFrom calls current history)
  | [] => inferInstanceAs (Decidable ((∀ x ∈ current, x ∈ calls) ∧ current.Nodup))
  | message :: history =>
    have := decidablePairedFrom message.toolUseIds current history
    inferInstanceAs (Decidable (((∀ x ∈ message.toolResultIds, x ∈ calls) ∧
      message.toolResultIds.Nodup) ∧ (∀ x ∈ message.toolUseIds, x ∈ answers current history) ∧
      PairedFrom message.toolUseIds current history))

def occurrences (current : List String) : List Message → List (String × Bool)
  | [] => []
  | message :: history =>
    message.toolUseIds.map (fun x => (x, decide (x ∈ answers current history))) ++
      occurrences current history

/-- No tool-use id is answered in one turn and unanswered in another. -/
def AnsweredUniformly (history : List Message) (current : List String) : Prop :=
  ∀ x, ¬ ((x, true) ∈ occurrences current history ∧ (x, false) ∈ occurrences current history)

variable {current : List String} {x : String} (history : List Message) (orphanedIds : Finset String)

theorem pairedFrom_congr {history history' : List Message}
    (huses : history.map Message.toolUseIds = history'.map Message.toolUseIds)
    (hresults : history.map Message.toolResultIds = history'.map Message.toolResultIds)
    (calls : List String) :
    PairedFrom calls current history ↔ PairedFrom calls current history' := by
  induction history generalizing history' calls with
  | nil =>
    cases history' with
    | nil => rfl
    | cons => cases huses
  | cons message history ih =>
    cases history' with
    | nil => cases huses
    | cons message' history' =>
      obtain ⟨huse, huses⟩ := List.cons_eq_cons.mp huses
      obtain ⟨hresult, hresults⟩ := List.cons_eq_cons.mp hresults
      have hanswers : answers current history = answers current history' := by
        cases history <;> cases history'
        · rfl
        · cases huses
        · cases huses
        · exact (List.cons_eq_cons.mp hresults).1
      rw [PairedFrom, PairedFrom, huse, hresult, hanswers, ih huses hresults]

theorem mem_retainResults {validIds seen : Finset String} {results : List ToolResult}
    {warnings : ProxyWarnings} :
    x ∈ (retainResults validIds seen results warnings).1.map ToolResult.toolUseId ↔
      x ∈ results.map ToolResult.toolUseId ∧ x ∈ validIds ∧ x ∉ seen := by
  induction results generalizing seen warnings with
  | nil => simp [retainResults]
  | cons result results ih =>
    by_cases hvalid : result.toolUseId ∈ validIds
    · by_cases hseen : result.toolUseId ∈ seen
      · simp only [retainResults, hvalid, hseen, not_true, if_false, if_true, ih, List.map_cons,
          List.mem_cons]
        grind
      · simp only [retainResults, hvalid, hseen, not_true, if_false, ih, List.map_cons,
          List.mem_cons, Finset.mem_insert]
        grind
    · simp only [retainResults, hvalid, not_false_eq_true, if_true, ih, List.map_cons,
        List.mem_cons]
      grind

theorem nodup_retainResults (validIds seen : Finset String) (results : List ToolResult)
    (warnings : ProxyWarnings) :
    ((retainResults validIds seen results warnings).1.map ToolResult.toolUseId).Nodup := by
  induction results generalizing seen warnings with
  | nil => exact List.nodup_nil
  | cons result results ih =>
    by_cases hvalid : result.toolUseId ∉ validIds
    · simp only [retainResults, if_pos hvalid]
      exact ih _ _
    by_cases hseen : result.toolUseId ∈ seen
    · simp only [retainResults, if_neg hvalid, if_pos hseen]
      exact ih _ _
    · simp only [retainResults, if_neg hvalid, if_neg hseen, List.map_cons, List.nodup_cons,
        mem_retainResults]
      exact ⟨fun h => h.2.2 (Finset.mem_insert_self _ _), ih _ _⟩

theorem toolUseIds_sanitizeTurn (validIds : Finset String) (message : Message)
    (warnings : ProxyWarnings) :
    (sanitizeTurn validIds message warnings).1.toolUseIds = message.toolUseIds := by
  cases message with
  | assistant message => rfl
  | user message =>
    simp only [sanitizeTurn]
    split_ifs <;> rfl

theorem mem_toolResultIds_sanitizeTurn {validIds : Finset String} {message : Message}
    {warnings : ProxyWarnings} :
    x ∈ (sanitizeTurn validIds message warnings).1.toolResultIds ↔
      x ∈ message.toolResultIds ∧ x ∈ validIds := by
  cases message with
  | assistant message => simp [sanitizeTurn, Message.toolResultIds]
  | user message =>
    by_cases hempty : message.toolResults = []
    · simp [sanitizeTurn, hempty, Message.toolResultIds]
    · simp only [sanitizeTurn, if_neg hempty, Message.toolResultIds, mem_retainResults,
        Finset.notMem_empty, not_false_eq_true, and_true]

theorem nodup_toolResultIds_sanitizeTurn (validIds : Finset String) (message : Message)
    (warnings : ProxyWarnings) :
    (sanitizeTurn validIds message warnings).1.toolResultIds.Nodup := by
  cases message with
  | assistant message => exact List.nodup_nil
  | user message =>
    by_cases hempty : message.toolResults = []
    · simp [sanitizeTurn, hempty, Message.toolResultIds]
    · simp only [sanitizeTurn, if_neg hempty, Message.toolResultIds]
      exact nodup_retainResults _ _ _ _

/-- What the first pass establishes: results answer the turn before them, once. -/
def ResultsPairedFrom (calls : List String) : List Message → Prop
  | [] => True
  | message :: history =>
    ((∀ x ∈ message.toolResultIds, x ∈ calls) ∧ message.toolResultIds.Nodup) ∧
    ResultsPairedFrom message.toolUseIds history

theorem resultsPairedFrom_sanitizeFrom (calls : List String) (history : List Message)
    (warnings : ProxyWarnings) :
    ResultsPairedFrom calls (sanitizeFrom calls.toFinset history warnings).1 := by
  induction history generalizing calls warnings with
  | nil => trivial
  | cons message history ih =>
    simp only [sanitizeFrom, ResultsPairedFrom, toolUseIds_sanitizeTurn]
    refine ⟨⟨fun x hx => ?_, nodup_toolResultIds_sanitizeTurn _ _ _⟩, ih _ _⟩
    exact List.mem_toFinset.mp (mem_toolResultIds_sanitizeTurn.mp hx).2

theorem mem_answers_sanitizeFrom {current calls : List String} {history : List Message}
    {warnings : ProxyWarnings} (hx : x ∈ calls) :
    x ∈ answers current (sanitizeFrom calls.toFinset history warnings).1 ↔
      x ∈ answers current history := by
  cases history with
  | nil => rfl
  | cons message history =>
    simp only [sanitizeFrom, answers, mem_toolResultIds_sanitizeTurn, List.mem_toFinset, hx,
      and_true]

theorem occurrences_sanitizeFrom (current calls : List String) (history : List Message)
    (warnings : ProxyWarnings) :
    occurrences current (sanitizeFrom calls.toFinset history warnings).1 =
      occurrences current history := by
  induction history generalizing calls warnings with
  | nil => rfl
  | cons message history ih =>
    simp only [sanitizeFrom, occurrences, toolUseIds_sanitizeTurn, ih]
    congr 1
    refine List.map_congr_left fun x hx => ?_
    simp only [mem_answers_sanitizeFrom hx]

namespace PairingScan

def pendingIds (scan : PairingScan) : List String :=
  scan.pendingAssistantToolUseIds.getD []

theorem mem_unpaired_step {scan : PairingScan} {message : Message} {x : String} :
    x ∈ (scan.step message).unpairedToolUseIds ↔
      x ∈ scan.unpairedToolUseIds ∨ x ∈ scan.pendingIds ∧ x ∉ message.toolResultIds := by
  cases message with
  | assistant message =>
    cases htoolUses : message.toolUses <;>
      simp [step, htoolUses, pendingIds, Message.toolResultIds]
  | user message =>
    simp only [step, pendingIds, Message.toolResultIds, Finset.mem_union, List.mem_toFinset,
      List.mem_filter, decide_eq_true_eq]

theorem pendingIds_step (scan : PairingScan) (message : Message) :
    (scan.step message).pendingIds = message.toolUseIds := by
  cases message with
  | assistant message =>
    cases htoolUses : message.toolUses with
    | none => simp [step, htoolUses, pendingIds, Message.toolUseIds]
    | some toolUses =>
      cases toolUses <;> simp [step, htoolUses, pendingIds, Message.toolUseIds]
  | user message => rfl

end PairingScan

/-- Tool-use ids of the turn before the current results. -/
def lastCalls (calls : List String) : List Message → List String
  | [] => calls
  | message :: history => lastCalls message.toolUseIds history

theorem pendingIds_foldl (scan : PairingScan) :
    (history.foldl PairingScan.step scan).pendingIds = lastCalls scan.pendingIds history := by
  induction history generalizing scan with
  | nil => rfl
  | cons message history ih => rw [List.foldl_cons, ih, PairingScan.pendingIds_step, lastCalls]

theorem mem_unpaired_foldl (current : List String) (x : String) (history : List Message)
    (scan : PairingScan) :
    (x ∈ (history.foldl PairingScan.step scan).unpairedToolUseIds ∨
        x ∈ lastCalls scan.pendingIds history ∧ x ∉ current) ↔
      x ∈ scan.unpairedToolUseIds ∨ x ∈ scan.pendingIds ∧ x ∉ answers current history ∨
        (x, false) ∈ occurrences current history := by
  induction history generalizing scan with
  | nil => simp [lastCalls, answers, occurrences]
  | cons message history ih =>
    have hstep := ih (scan.step message)
    rw [PairingScan.pendingIds_step] at hstep
    rw [List.foldl_cons, lastCalls, hstep, PairingScan.mem_unpaired_step]
    simp only [answers, occurrences, List.mem_append, List.mem_map, Prod.mk.injEq]
    grind

namespace CurrentScan

/-- The scan after the results `done`: the first of each id of the last turn is kept. -/
structure Inv (currentToolUseIds unpaired : Finset String) (done : List ToolResult)
    (scan : CurrentScan) : Prop where
  nodup : (scan.filteredResults.map ToolResult.toolUseId).Nodup
  seen : ∀ x, x ∈ scan.seenCurrentResults ↔ x ∈ scan.filteredResults.map ToolResult.toolUseId
  paired : scan.currentPairedToolUseIds = scan.seenCurrentResults
  filtered : ∀ x, x ∈ scan.filteredResults.map ToolResult.toolUseId ↔
    x ∈ currentToolUseIds ∧ x ∈ done.map ToolResult.toolUseId
  unpaired : ∀ x, x ∉ scan.seenCurrentResults → (x ∈ scan.unpairedToolUseIds ↔ x ∈ unpaired)

theorem Inv.step {currentToolUseIds unpaired : Finset String} {done : List ToolResult}
    {scan : CurrentScan} (h : Inv currentToolUseIds unpaired done scan) (result : ToolResult) :
    Inv currentToolUseIds unpaired (done ++ [result]) (scan.step currentToolUseIds result) := by
  by_cases hnew : result.toolUseId ∈ currentToolUseIds ∧ result.toolUseId ∉ scan.seenCurrentResults
  · have hfresh : result.toolUseId ∉ scan.filteredResults.map ToolResult.toolUseId :=
      fun hmem => hnew.2 ((h.seen _).mpr hmem)
    rw [CurrentScan.step, if_pos hnew]
    constructor
    · rw [List.map_append]
      exact h.nodup.append (List.nodup_singleton _) (by simpa using hfresh)
    · intro x
      simp only [Finset.mem_insert, h.seen, List.map_append, List.mem_append, List.map_cons,
        List.map_nil, List.mem_singleton]
      exact or_comm
    · simp only [h.paired]
    · intro x
      simp only [List.map_append, List.mem_append, h.filtered, List.map_cons, List.map_nil,
        List.mem_singleton]
      grind
    · intro x hx
      simp only [Finset.mem_insert, not_or] at hx
      rw [Finset.mem_erase, h.unpaired x hx.2]
      exact and_iff_right hx.1
  · have hold : result.toolUseId ∈ currentToolUseIds →
        result.toolUseId ∈ done.map ToolResult.toolUseId := by
      intro hmem
      have hseen : result.toolUseId ∈ scan.seenCurrentResults := by
        by_contra hnot
        exact hnew ⟨hmem, hnot⟩
      exact ((h.filtered _).mp ((h.seen _).mp hseen)).2
    have hfiltered : ∀ x, x ∈ scan.filteredResults.map ToolResult.toolUseId ↔
        x ∈ currentToolUseIds ∧ x ∈ (done ++ [result]).map ToolResult.toolUseId := by
      intro x
      simp only [h.filtered, List.map_append, List.mem_append, List.map_cons, List.map_nil,
        List.mem_singleton]
      grind
    rw [CurrentScan.step, if_neg hnew]
    split_ifs
    · exact ⟨h.nodup, h.seen, h.paired, hfiltered, h.unpaired⟩
    · exact ⟨h.nodup, h.seen, h.paired, hfiltered, h.unpaired⟩

theorem Inv.foldl {currentToolUseIds unpaired : Finset String} {done : List ToolResult}
    {scan : CurrentScan} (h : Inv currentToolUseIds unpaired done scan)
    (results : List ToolResult) :
    Inv currentToolUseIds unpaired (done ++ results)
      (results.foldl (CurrentScan.step currentToolUseIds) scan) := by
  induction results generalizing done scan with
  | nil => simpa using h
  | cons result results ih =>
    rw [List.foldl_cons, List.append_cons]
    exact ih (h.step result)

end CurrentScan

theorem validateToolPairing_spec (history : List Message) (toolResults : List ToolResult)
    (warnings : ProxyWarnings) :
    let current := toolResults.map ToolResult.toolUseId
    let r := validateToolPairing history toolResults warnings
    (r.1.map ToolResult.toolUseId).Nodup ∧
    (∀ x, x ∈ r.1.map ToolResult.toolUseId ↔ x ∈ lastCalls [] history ∧ x ∈ current) ∧
    ∀ x, x ∈ r.2.1 ↔ (x, false) ∈ occurrences current history ∧
      ¬ (x ∈ lastCalls [] history ∧ x ∈ current) := by
  intro current r
  set scan := history.foldl PairingScan.step PairingScan.start with hscan
  have hlast : scan.pendingAssistantToolUseIds.getD [] = lastCalls [] history :=
    pendingIds_foldl history PairingScan.start
  have hstart : CurrentScan.Inv (lastCalls [] history).toFinset
      (scan.unpairedToolUseIds ∪ (lastCalls [] history).toFinset) []
      ⟨[], ∅, scan.unpairedToolUseIds ∪ (lastCalls [] history).toFinset, ∅, warnings⟩ :=
    ⟨List.nodup_nil, by simp, rfl, by simp, fun x _ => Iff.rfl⟩
  have hinv := hstart.foldl toolResults
  rw [List.nil_append] at hinv
  set final := toolResults.foldl (CurrentScan.step (lastCalls [] history).toFinset)
    ⟨[], ∅, scan.unpairedToolUseIds ∪ (lastCalls [] history).toFinset, ∅, warnings⟩ with hfinal
  have hfiltered : r.1 = final.filteredResults := by
    simp only [r, validateToolPairing, ← hscan, hlast, ← hfinal]
  have horphaned : r.2.1 = (final.unpairedToolUseIds \ final.currentPairedToolUseIds) ∪
      ((lastCalls [] history).toFinset \ final.currentPairedToolUseIds) := by
    simp only [r, validateToolPairing, ← hscan, hlast, ← hfinal]
  have hpaired : ∀ x, x ∈ final.currentPairedToolUseIds ↔
      x ∈ lastCalls [] history ∧ x ∈ current := by
    intro x
    rw [hinv.paired, hinv.seen, hinv.filtered, List.mem_toFinset]
  refine ⟨?_, fun x => ?_, fun x => ?_⟩
  · rw [hfiltered]
    exact hinv.nodup
  · rw [hfiltered, hinv.filtered, List.mem_toFinset]
  · have hunpaired := mem_unpaired_foldl current x history PairingScan.start
    have hfree : (x, false) ∈ occurrences current history ↔
        x ∈ scan.unpairedToolUseIds ∨ x ∈ lastCalls [] history ∧ x ∉ current := by
      have hstart' : PairingScan.start.pendingIds = [] := rfl
      rw [← hscan, hstart'] at hunpaired
      simpa [PairingScan.start] using hunpaired.symm
    rw [horphaned, Finset.mem_union, Finset.mem_sdiff, Finset.mem_sdiff, hfree]
    by_cases hx : x ∈ final.currentPairedToolUseIds
    · have hboth := (hpaired x).mp hx
      simp only [hx, hboth, and_self, not_true_eq_false, and_false, or_self]
    · have hnone := mt (hpaired x).mpr hx
      have hkept : x ∈ final.unpairedToolUseIds ↔
          x ∈ scan.unpairedToolUseIds ∨ x ∈ lastCalls [] history := by
        rw [hinv.paired] at hx
        rw [hinv.unpaired x hx, Finset.mem_union, List.mem_toFinset]
      have hcalls : x ∈ lastCalls [] history ∧ x ∉ current ↔ x ∈ lastCalls [] history :=
        and_iff_left_of_imp fun hmem hcurrent => hnone ⟨hmem, hcurrent⟩
      simp only [hx, hnone, hkept, hcalls, not_false_eq_true, and_true, List.mem_toFinset,
        or_assoc, or_self]

theorem toolUseIds_removeFromTurn (message : Message) :
    (removeFromTurn orphanedIds message).toolUseIds =
      message.toolUseIds.filter (· ∉ orphanedIds) := by
  cases message with
  | user message => rfl
  | assistant message =>
    cases htoolUses : message.toolUses with
    | none => simp [removeFromTurn, htoolUses, Message.toolUseIds]
    | some toolUses =>
      have hfilter : ((if toolUses.filter (·.toolUseId ∉ orphanedIds) = [] then none
          else some (toolUses.filter (·.toolUseId ∉ orphanedIds))).getD []) =
          toolUses.filter (·.toolUseId ∉ orphanedIds) := by
        split_ifs with hempty
        · rw [hempty]
          rfl
        · rfl
      simp only [removeFromTurn, htoolUses, Message.toolUseIds, hfilter, Option.getD_some,
        List.filter_map]
      rfl

theorem toolResultIds_removeFromTurn (message : Message) :
    (removeFromTurn orphanedIds message).toolResultIds = message.toolResultIds := by
  cases message with
  | user message => rfl
  | assistant message => cases htoolUses : message.toolUses <;> simp [removeFromTurn, htoolUses,
      Message.toolResultIds]

/-- Removing ids from a history with paired results pairs every turn exactly when the
removed ids are those of the unanswered occurrences and none of the answered ones. -/
theorem pairedFrom_map_removeFromTurn_iff {current kept : List String} {orphanedIds : Finset String}
    (hkept : kept.Nodup) (history : List Message) (calls : List String)
    (hresults : ResultsPairedFrom calls history)
    (hcurrent : ∀ x, x ∈ kept ↔ x ∈ lastCalls calls history ∧ x ∈ current) :
    PairedFrom (calls.filter (· ∉ orphanedIds)) kept (history.map (removeFromTurn orphanedIds)) ↔
      (∀ x ∈ calls, x ∈ answers current history → x ∉ orphanedIds) ∧
        ∀ x answered, (x, answered) ∈ occurrences current history →
          (answered = true ↔ x ∉ orphanedIds) := by
  induction history generalizing calls with
  | nil =>
    simp only [List.map_nil, PairedFrom, hkept, and_true, List.mem_filter, decide_eq_true_eq,
      answers, occurrences, List.not_mem_nil, false_implies, implies_true]
    simp only [lastCalls] at hcurrent
    grind
  | cons message history ih =>
    obtain ⟨⟨hcalls, hnodup⟩, hrest⟩ := hresults
    have hanswers : ∀ x ∈ message.toolUseIds,
        (x ∈ answers kept (history.map (removeFromTurn orphanedIds)) ↔
          x ∈ answers current history) := by
      intro x hx
      cases history with
      | nil =>
        have := hcurrent x
        simp only [lastCalls] at this
        simp only [List.map_nil, answers]
        tauto
      | cons next history => simp only [List.map_cons, answers, toolResultIds_removeFromTurn]
    have hih := ih message.toolUseIds hrest hcurrent
    rw [List.map_cons, PairedFrom, toolUseIds_removeFromTurn, toolResultIds_removeFromTurn, hih]
    constructor
    · rintro ⟨⟨hkeep, -⟩, hused, hans, hocc⟩
      refine ⟨fun x _ hx => ?_, fun x answered hmem => ?_⟩
      · simpa using (List.mem_filter.mp (hkeep x hx)).2
      · rcases List.mem_append.mp hmem with hhead | htail
        · obtain ⟨y, hy, heq⟩ := List.mem_map.mp hhead
          cases heq
          rw [decide_eq_true_eq]
          refine ⟨hans x hy, fun hx => (hanswers x hy).mp (hused x ?_)⟩
          exact List.mem_filter.mpr ⟨hy, by simpa using hx⟩
        · exact hocc x answered htail
    · rintro ⟨hhead, hocc⟩
      have huse : ∀ x ∈ message.toolUseIds, (x ∈ answers current history ↔ x ∉ orphanedIds) := by
        intro x hx
        rw [← hocc x _ (List.mem_append_left _ (List.mem_map.mpr ⟨x, hx, rfl⟩)), decide_eq_true_eq]
      refine ⟨⟨fun x hx => ?_, hnodup⟩, fun x hx => ?_, fun x hx => (huse x hx).mp,
        fun x answered hmem => hocc x answered (List.mem_append_right _ hmem)⟩
      · exact List.mem_filter.mpr ⟨hcalls x hx, by simpa using hhead x (hcalls x hx) hx⟩
      · obtain ⟨hx, hnot⟩ := List.mem_filter.mp hx
        exact (hanswers x hx).mpr ((huse x hx).mpr (by simpa using hnot))

theorem pairedFrom_removeOrphanedToolUses :
    PairedFrom [] current (removeOrphanedToolUses history orphanedIds) ↔
      PairedFrom [] current (history.map (removeFromTurn orphanedIds)) := by
  by_cases hempty : orphanedIds = ∅
  · rw [removeOrphanedToolUses, if_pos hempty, hempty]
    refine pairedFrom_congr ?_ ?_ []
    · simp [toolUseIds_removeFromTurn, Function.comp_def]
    · simp [toolResultIds_removeFromTurn, Function.comp_def]
  · rw [removeOrphanedToolUses, if_neg hempty]

theorem mem_occurrences_of_mem_lastCalls (calls : List String) (hlast : x ∈ lastCalls calls history)
    (hx : x ∈ current) :
    (x, true) ∈ occurrences current history ∨ x ∈ calls ∧ x ∈ answers current history := by
  induction history generalizing calls with
  | nil => exact .inr ⟨hlast, hx⟩
  | cons message history ih =>
    refine .inl (List.mem_append.mpr ?_)
    rcases ih message.toolUseIds hlast with hmem | ⟨hcall, hanswer⟩
    · exact .inr hmem
    · exact .inl (List.mem_map.mpr ⟨x, hcall, by rw [decide_eq_true hanswer]⟩)

/-- The repaired history pairs every tool use and every result with the neighbouring turn
exactly when no tool-use id is answered in one turn and unanswered in another. -/
theorem repairToolPairing_paired_iff (history : List Message) (toolResults : List ToolResult)
    (warnings : ProxyWarnings) :
    let repaired := repairToolPairing history toolResults warnings
    PairedFrom [] (repaired.2.1.map ToolResult.toolUseId) repaired.1 ↔
      AnsweredUniformly history (toolResults.map ToolResult.toolUseId) := by
  intro repaired
  set current := toolResults.map ToolResult.toolUseId with hcurrent
  set sanitized := (sanitizeHistoryToolResults history warnings).1 with hsanitized
  have hocc : occurrences current sanitized = occurrences current history :=
    occurrences_sanitizeFrom current [] history warnings
  obtain ⟨hnodup, hkept, horphaned⟩ := validateToolPairing_spec sanitized toolResults
    (sanitizeHistoryToolResults history warnings).2
  set validated := validateToolPairing sanitized toolResults
    (sanitizeHistoryToolResults history warnings).2 with hvalidated
  have hrepaired : repaired = (removeOrphanedToolUses sanitized validated.2.1, validated.1,
      validated.2.2) := rfl
  rw [hrepaired, pairedFrom_removeOrphanedToolUses]
  rw [show ([] : List String) = [].filter (· ∉ validated.2.1) from rfl,
    pairedFrom_map_removeFromTurn_iff hnodup sanitized []
      (resultsPairedFrom_sanitizeFrom [] history warnings) hkept]
  rw [← hcurrent] at horphaned
  rw [hocc] at horphaned ⊢
  simp only [List.not_mem_nil, false_implies, implies_true, true_and]
  constructor
  · rintro huniform x ⟨htrue, hfalse⟩
    have h₁ := huniform x true htrue
    have h₂ := huniform x false hfalse
    simp_all
  · intro huniform x answered hmem
    cases answered with
    | true =>
      refine iff_of_true rfl fun hx => ?_
      exact huniform x ⟨hmem, ((horphaned x).mp hx).1⟩
    | false =>
      refine iff_of_false Bool.false_ne_true fun hx => hx ((horphaned x).mpr ⟨hmem, ?_⟩)
      rintro ⟨hlast, hx⟩
      rcases mem_occurrences_of_mem_lastCalls sanitized [] hlast hx with htrue | ⟨hnil, -⟩
      · exact huniform x ⟨hocc ▸ htrue, hmem⟩
      · cases hnil

/-- The first call of `a` is never answered, the second one is answered by the current
result, which takes the id out of the set of orphans. -/
def reusedIdHistory : List Message :=
  [.user ⟨"run", []⟩, .assistant ⟨"", some [⟨"a", "ls", ""⟩]⟩, .user ⟨"again", []⟩,
    .assistant ⟨"", some [⟨"a", "ls", ""⟩]⟩]

theorem not_paired_reusedIdHistory :
    ¬ PairedFrom []
      ((repairToolPairing reusedIdHistory [⟨"a", "done", false⟩] ⟨0, 0, 0⟩).2.1.map
        ToolResult.toolUseId)
      (repairToolPairing reusedIdHistory [⟨"a", "done", false⟩] ⟨0, 0, 0⟩).1 := by
  decide +kernel

end KiroProxy.Converter
